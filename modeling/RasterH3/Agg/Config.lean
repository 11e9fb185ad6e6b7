import Mathlib.Data.List.Basic
import RasterH3.Agg.Spill

/-!
# What a scan is configured with

The part of the configuration that the controller reads, and the checks of `validate` that
bear on it. The resolutions a scan may combine matter to compaction: a parent must not come
out at a resolution that was asked for.

Fields that none of these functions reads are left out, and with them the checks that are
about nothing else. What a failing check says is a part of the model, since the error is
what the caller sees. `Valid` collects what the checks make sure of, in the form in which
the results about compaction and eviction ask for it, so that none of them asks for more
than a configuration that validates has.
-/

namespace RasterH3.Agg

/-- What a call may end with. -/
inductive StreamError where
  | streamFailed (reason : String)
  | io (error : SpillError)
  | invalidParameter (what : String)
  | transformFailures (count : Nat)
  deriving DecidableEq, Repr

namespace StreamError

def message : StreamError → String
  | streamFailed reason => "Raster stream failed: " ++ reason
  | io error => "I/O error: " ++ error.message
  | invalidParameter what => "Invalid parameter: " ++ what
  | transformFailures count =>
      "strict_transforms: " ++ toString count ++
        " valid sample point(s) could not be transformed to WGS84 (unsupported CRS, or points " ++
        "outside its valid domain); check the raster's CRS or pass an explicit crs"

end StreamError

structure MultiResolutionConfig where
  resolutions : List Nat
  aggregationBudgetBytes : Usize
  compactionBudgetBytes : Option Nat
  aggregationWorkers : Option Nat
  compactH3Children : Bool
  compact : Bool
  strictTransforms : Bool
  partitioned : Bool

namespace MultiResolutionConfig

def shouldCompactH3Children (c : MultiResolutionConfig) : Bool := c.compactH3Children || c.compact

def validate (c : MultiResolutionConfig) : Except StreamError Unit :=
  if c.aggregationBudgetBytes.val < max c.resolutions.length 1 * 64 * 1024 then
    .error (.invalidParameter "aggregation budget must provide at least 64 KiB per resolution")
  else if c.compactionBudgetBytes = some 0 then
    .error (.invalidParameter
      "decode_budget_bytes and compaction_budget_bytes must be positive")
  else if c.aggregationWorkers = some 0 then
    .error (.invalidParameter "aggregation_workers and fetch_workers must be >=1")
  else if c.resolutions.isEmpty then
    .error (.invalidParameter "Resolutions list cannot be empty")
  else if ¬ c.resolutions.Nodup then
    .error (.invalidParameter "duplicate H3 resolutions")
  else match c.resolutions.find? (15 < ·) with
  | some r => .error (.invalidParameter ("Invalid H3 resolution: " ++ toString r))
  | none =>
      if c.partitioned ∧ c.shouldCompactH3Children then
        .error (.invalidParameter ("partitioned scans cannot compact H3 children: " ++
          "sibling groups may span partitions; compact after merging the partials"))
      else match
        if c.shouldCompactH3Children then
          c.resolutions.find? fun res => 0 < res ∧ res - 1 ∈ c.resolutions
        else none with
      | some child =>
          .error (.invalidParameter ("compact output cannot combine H3 resolutions " ++
            toString (child - 1) ++ " and " ++ toString child ++
            ": compaction would emit duplicate parent cells"))
      | none => .ok ()

/-- What holds of the resolutions of a configuration that passed. -/
structure Valid (c : MultiResolutionConfig) : Prop where
  nonempty : c.resolutions ≠ []
  nodup : c.resolutions.Nodup
  le_fifteen : ∀ r ∈ c.resolutions, r ≤ 15
  unpartitioned : c.shouldCompactH3Children = true → c.partitioned = false
  notAdjacent : c.shouldCompactH3Children = true → ∀ r ∈ c.resolutions, r + 1 ∉ c.resolutions

theorem valid_of_validate {c : MultiResolutionConfig} (h : c.validate = .ok ()) : c.Valid := by
  unfold validate at h
  split at h
  next => cases h
  split at h
  next => cases h
  split at h
  next => cases h
  split at h
  next => cases h
  next hne =>
  split at h
  next => cases h
  next hdup =>
  split at h
  next => cases h
  next hres =>
  split at h
  next => cases h
  next hpart =>
  split at h
  next => cases h
  next hadj =>
  refine ⟨fun hnil => hne (by rw [hnil]; rfl), not_not.mp hdup, fun r hr => ?_, fun hc => ?_,
    fun hc r hr hr' => ?_⟩
  · have := List.find?_eq_none.mp hres r hr
    simpa using this
  · cases hp : c.partitioned with
    | false => rfl
    | true => exact absurd ⟨hp, hc⟩ hpart
  · rw [if_pos hc] at hadj
    have := List.find?_eq_none.mp hadj (r + 1) hr'
    simp [hr] at this

end MultiResolutionConfig

end RasterH3.Agg
