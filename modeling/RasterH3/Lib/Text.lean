import Mathlib.Data.List.Basic

/-!
# Text without its margins

Texts are lists of characters. White space is what Unicode says it is, which is more than a
parser of one's own would think of: the next line, the no-break space and the spaces of other
scripts are trimmed as well.
-/

namespace Text

def isWhitespace (c : Char) : Bool :=
  let n := c.toNat
  (9 ≤ n && n ≤ 13) || n = 32 || n = 133 || n = 160 || n = 5760 || (8192 ≤ n && n ≤ 8202) ||
    n = 8232 || n = 8233 || n = 8239 || n = 8287 || n = 12288

def trim (s : List Char) : List Char :=
  ((s.dropWhile isWhitespace).reverse.dropWhile isWhitespace).reverse

theorem length_trim_le (s : List Char) : (trim s).length ≤ s.length := by
  have hback := (List.dropWhile_suffix (l := (s.dropWhile isWhitespace).reverse)
    isWhitespace).length_le
  have hfront := (List.dropWhile_suffix (l := s) isWhitespace).length_le
  rw [List.length_reverse] at hback
  rw [trim, List.length_reverse]
  exact Nat.le_trans hback hfront

end Text
