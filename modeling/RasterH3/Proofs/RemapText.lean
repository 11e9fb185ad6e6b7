import Mathlib.Tactic
import RasterH3.Agg.RemapParser
import RasterH3.Lib.Reader
import RasterH3.Proofs.RemapRules

/-!
# The rules of a text

Two things are said of the parser of a remapping. It ends on every text: the model gives the
reading of a list of sources as many rounds as the list has characters, and running out of
rounds is an error of the model that the code has no counterpart to. `parse_ne` says that it
never comes up. The sources of a list are shorter than the list by its brackets
(`parseSourceRules_ne`), and cutting a text at commas, trimming it and taking its brackets
off lengthens none of its parts; so a part has enough rounds if the list had.

The other is the order of the rules. A category is given the target of the last exact rule
for it, or else of the first range that contains it, and "last" and "first" should mean what
they mean in the text. The rules that a list of sources adds are appended to those that are
there, and have the target of the entry (`parseSourceRules_append`, by induction on the
rounds and, within a list, on its parts). So the rules of an entry stand between those of
the entries before it and those of the entries after it (`rules_in_order`), and
`remap_parse` is the reading of the rules in that order, whichever way the table of the
remapper looks them up.
-/

namespace RasterH3.Agg

def RemapRule.target : RemapRule → Option Int64
  | .exact _ target => target
  | .range _ _ target => target

namespace RemapParser

open Text

/-! ## Rounds -/

theorem length_inner {s : List Char} (h : enclosed '[' ']' s = true) :
    (inner s).length + 2 = s.length := by
  rw [inner, List.length_dropLast, List.length_tail]
  match s, h with
  | [], h => simp [enclosed] at h
  | [c], h =>
      simp only [enclosed, List.head?_cons, List.getLast?_singleton, Option.some.injEq,
        Bool.decide_and, Bool.and_eq_true, decide_eq_true_eq] at h
      obtain ⟨rfl, hc⟩ := h
      exact absurd hc (by decide)
  | a :: b :: s, _ => simp

theorem length_collapse_le (rounds : Nat) (s : List Char) :
    (collapse rounds s).length ≤ s.length := by
  induction rounds generalizing s with
  | zero => exact le_rfl
  | succ rounds ih =>
      unfold collapse
      split
      next h =>
        dsimp only
        split
        next =>
          have hinner := length_inner h
          have htrim := length_trim_le (inner s)
          have hrest := ih (trim (inner s))
          omega
        next => exact le_rfl
      next => exact le_rfl

theorem length_splitAll_le {c : Char} {s part : List Char} (h : part ∈ splitAll c s) :
    part.length ≤ s.length := by
  induction s generalizing part with
  | nil =>
      rw [splitAll, List.mem_singleton] at h
      rw [h]
  | cons x s ih =>
      rw [splitAll] at h
      split at h
      next =>
        rcases List.mem_cons.mp h with rfl | h
        · exact Nat.zero_le _
        · exact (ih h).trans (Nat.le_succ _)
      next =>
        cases hparts : splitAll c s with
        | nil =>
            rw [hparts] at h
            simp only [List.mem_singleton] at h
            rw [h]
            exact Nat.succ_le_succ (Nat.zero_le _)
        | cons first parts =>
            rw [hparts] at h
            rcases List.mem_cons.mp h with rfl | h
            · exact Nat.succ_le_succ (ih (hparts ▸ List.mem_cons_self))
            · exact (ih (hparts ▸ List.mem_cons_of_mem _ h)).trans (Nat.le_succ _)

theorem foldlM_ne {α β : Type} {f : β → α → Except RemapError β} {e : RemapError} {l : List α}
    (hf : ∀ a ∈ l, ∀ acc, f acc a ≠ .error e) (acc : β) : l.foldlM f acc ≠ .error e := by
  induction l generalizing acc with
  | nil => intro h; cases h
  | cons a l ih =>
      rw [List.foldlM_cons]
      cases hstep : f acc a with
      | error e' =>
          intro h
          cases h
          exact hf a List.mem_cons_self acc hstep
      | ok acc' => exact ih (fun b hb => hf b (List.mem_cons_of_mem _ hb)) acc'

theorem parseRange_ne (trimmed start stop : List Char) (target : Option Int64) :
    parseRange trimmed start stop target ≠ .error .outOfRounds := by
  unfold parseRange
  split
  next => intro h; cases h
  next =>
    split
    next => intro h; cases h
    next => intro h; cases h

theorem parseSingle_ne (trimmed : List Char) (target : Option Int64) :
    parseSingle trimmed target ≠ .error .outOfRounds := by
  unfold parseSingle
  split
  next => exact parseRange_ne _ _ _ _
  next =>
    split
    next => exact parseRange_ne _ _ _ _
    next =>
      split
      next => intro h; cases h
      next =>
        split
        next => intro h; cases h
        next => intro h; cases h

/-- A part of a list is shorter than the list by its brackets. -/
theorem parseSourceRules_ne {rounds : Nat} : ∀ {src : List Char} {target : Option Int64}
    {rules : List RemapRule}, src.length < rounds →
      parseSourceRules rounds src target rules ≠ .error .outOfRounds := by
  induction rounds with
  | zero => intro src _ _ h; exact absurd h (Nat.not_lt_zero _)
  | succ rounds ih =>
      intro src target rules hlen
      have htrim := length_trim_le src
      have hcollapse := length_collapse_le (trim src).length (trim src)
      unfold parseSourceRules
      dsimp only
      split
      next h =>
        apply foldlM_ne
        intro part hpart rules
        have hinner := length_inner h
        have hsplit := length_splitAll_le hpart
        have hpart := length_trim_le part
        exact ih (by omega)
      next =>
        cases hsingle : parseSingle (collapse (trim src).length (trim src)) target with
        | error e =>
            intro h
            cases h
            exact parseSingle_ne _ _ hsingle
        | ok rule => intro h; cases h

theorem parseEntry_ne (read : Read) (entry : List Char) :
    parseEntry read entry ≠ .error .outOfRounds := by
  unfold parseEntry
  dsimp only
  split
  next => intro h; cases h
  next =>
    cases hitem : splitItem (trim entry) with
    | error e =>
        intro h
        cases h
        revert hitem
        unfold splitItem
        split
        next => intro h; cases h
        next =>
          split
          next => intro h; cases h
          next =>
            split
            next => intro h; cases h
            next => intro h; cases h
    | ok parts =>
        obtain ⟨srcPart, targetPart⟩ := parts
        simp only [bind, Except.bind, pure, Except.pure]
        cases htarget : parseTarget (cleanToken targetPart) with
        | error e =>
            intro h
            cases h
            revert htarget
            unfold parseTarget
            split
            next => intro h; cases h
            next =>
              split
              next => intro h; cases h
              next => intro h; cases h
        | ok target =>
            dsimp only
            split
            next => intro h; cases h
            next =>
              cases hrules : parseSourceRules ((cleanToken srcPart).length + 1)
                  (cleanToken srcPart) target read.1 with
              | error e =>
                  intro h
                  cases h
                  exact parseSourceRules_ne (Nat.lt_succ_self _) hrules
              | ok rules => intro h; cases h

/-- Every specification is read to its end. -/
theorem parse_ne (spec : List Char) : parse spec ≠ .error .outOfRounds := by
  have hrules : parseRules spec ≠ .error .outOfRounds := by
    unfold parseRules
    dsimp only
    split
    next => intro h; cases h
    next => exact foldlM_ne (fun entry _ read => parseEntry_ne read entry) _
  unfold parse
  cases h : parseRules spec with
  | error e =>
      intro he
      cases he
      exact hrules h
  | ok read => intro he; cases he

/-! ## The order of rules -/

theorem target_parseRange {trimmed start stop : List Char} {target : Option Int64}
    {rule : RemapRule} (h : parseRange trimmed start stop target = .ok rule) :
    rule.target = target := by
  unfold parseRange at h
  split at h
  next => cases h
  next =>
    split at h
    next => cases h
    next => cases h; rfl

theorem target_parseSingle {trimmed : List Char} {target : Option Int64} {rule : RemapRule}
    (h : parseSingle trimmed target = .ok rule) : rule.target = target := by
  unfold parseSingle at h
  split at h
  next => exact target_parseRange h
  next =>
    split at h
    next => exact target_parseRange h
    next =>
      split at h
      next => cases h; rfl
      next =>
        split at h
        next => cases h; rfl
        next => cases h

/-- Sources append rules with the target of their entry. -/
theorem parseSourceRules_append {rounds : Nat} : ∀ {src : List Char} {target : Option Int64}
    {rules rules' : List RemapRule}, parseSourceRules rounds src target rules = .ok rules' →
      ∃ new, rules' = rules ++ new ∧ ∀ rule ∈ new, rule.target = target := by
  induction rounds with
  | zero => intro src target rules rules' h; cases h
  | succ rounds ih =>
      intro src target rules rules' h
      unfold parseSourceRules at h
      dsimp only at h
      split at h
      next =>
        -- One part of a list after the other.
        obtain ⟨parts, hparts⟩ : ∃ parts, parts =
          splitAll ',' (inner (collapse (trim src).length (trim src))) := ⟨_, rfl⟩
        rw [← hparts] at h
        clear hparts
        induction parts generalizing rules with
        | nil =>
            cases h
            exact ⟨[], (List.append_nil _).symm, by simp⟩
        | cons part parts ihparts =>
            rw [List.foldlM_cons] at h
            cases hpart : parseSourceRules rounds (trim part) target rules with
            | error e => rw [hpart] at h; cases h
            | ok next =>
                rw [hpart] at h
                obtain ⟨new, rfl, hnew⟩ := ih hpart
                obtain ⟨later, rfl, hlater⟩ := ihparts h
                refine ⟨new ++ later, List.append_assoc .., ?_⟩
                intro rule hrule
                rcases List.mem_append.mp hrule with hrule | hrule
                · exact hnew rule hrule
                · exact hlater rule hrule
      next =>
        cases hsingle : parseSingle (collapse (trim src).length (trim src)) target with
        | error e => rw [hsingle] at h; cases h
        | ok rule =>
            rw [hsingle] at h
            cases h
            refine ⟨[rule], rfl, ?_⟩
            intro rule' hrule
            rw [List.mem_singleton.mp hrule]
            exact target_parseSingle hsingle

/-- An entry adds rules behind those of the entries before it. -/
theorem parseEntry_append {read read' : Read} {entry : List Char}
    (h : parseEntry read entry = .ok read') : read.1 <+: read'.1 := by
  unfold parseEntry at h
  dsimp only at h
  split at h
  next =>
    cases h
    exact List.prefix_rfl
  next =>
    cases hitem : splitItem (trim entry) with
    | error e => rw [hitem] at h; cases h
    | ok parts =>
        rw [hitem] at h
        simp only [bind, Except.bind, pure, Except.pure] at h
        cases htarget : parseTarget (cleanToken parts.2) with
        | error e => rw [htarget] at h; cases h
        | ok target =>
            rw [htarget] at h
            dsimp only at h
            split at h
            next =>
              cases h
              exact List.prefix_rfl
            next =>
              cases hrules : parseSourceRules ((cleanToken parts.1).length + 1)
                  (cleanToken parts.1) target read.1 with
              | error e => rw [hrules] at h; cases h
              | ok rules =>
                  rw [hrules] at h
                  cases h
                  obtain ⟨new, rfl, -⟩ := parseSourceRules_append hrules
                  exact List.prefix_append ..

theorem parseEntries_append {entries : List (List Char)} : ∀ {read read' : Read},
    entries.foldlM parseEntry read = .ok read' → read.1 <+: read'.1 := by
  induction entries with
  | nil =>
      intro read read' h
      cases h
      exact List.prefix_rfl
  | cons entry entries ih =>
      intro read read' h
      obtain ⟨next, hentry, hrest⟩ := Bytes.bind_eq_ok h
      exact (parseEntry_append hentry).trans (ih hrest)

/-- The rules of an entry stand between those of the entries before it and those of the entries
after it. -/
theorem rules_in_order {before after : List (List Char)} {entry : List Char} {start final : Read}
    (h : (before ++ entry :: after).foldlM parseEntry start = .ok final) :
    ∃ read read', before.foldlM parseEntry start = .ok read ∧
      parseEntry read entry = .ok read' ∧ read.1 <+: read'.1 ∧ read'.1 <+: final.1 := by
  rw [List.foldlM_append] at h
  obtain ⟨read, hbefore, h⟩ := Bytes.bind_eq_ok h
  obtain ⟨read', hentry, hafter⟩ := Bytes.bind_eq_ok h
  exact ⟨read, read', hbefore, hentry, parseEntry_append hentry, parseEntries_append hafter⟩

/-- A remapper answers as its text reads. -/
theorem remap_parse {spec : List Char} {remapper : CategoryRemapper}
    (h : parse spec = .ok remapper) :
    ∃ rules unmappedAction, parseRules spec = .ok (rules, unmappedAction) ∧
      ∀ cat, remapper.remap cat = RemapRule.plainReading rules unmappedAction cat := by
  unfold parse at h
  cases hread : parseRules spec with
  | error e => rw [hread] at h; cases h
  | ok read =>
      rw [hread] at h
      cases h
      exact ⟨read.1, read.2, rfl, CategoryRemapper.remap_eq read.1 read.2⟩

example : parseRules "[101, [102]]: 1; 7-9 => 2, else: 0".toList =
    .ok ([.exact 101 (some 1), .exact 102 (some 1), .range 7 9 (some 2)], .mapTo 0) := by
  rfl

end RemapParser

end RasterH3.Agg
