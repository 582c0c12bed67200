import Mathlib.Data.Finmap
import Mathlib.Tactic.SplitIfs

/-!
# Finite maps with a default value

`m[k]` of a map that creates a missing key with a default value: `valueAt` reads it, `alter`
rewrites it. `mapVals` rewrites every value in place.
-/

namespace Finmap

variable {κ ν : Type*} [DecidableEq κ]

/-- The value at `k`, or the default. -/
def valueAt (d : ν) (k : κ) (m : Finmap fun _ : κ => ν) : ν := (m.lookup k).getD d

/-- Rewrite the value at `k`, created from the default when absent. -/
def alter (d : ν) (k : κ) (f : ν → ν) (m : Finmap fun _ : κ => ν) : Finmap fun _ : κ => ν :=
  m.insert k (f (m.valueAt d k))

theorem lookup_alter (d : ν) (k k' : κ) (f : ν → ν) (m : Finmap fun _ : κ => ν) :
    (m.alter d k f).lookup k' = if k' = k then some (f (m.valueAt d k)) else m.lookup k' := by
  unfold alter
  split_ifs with h
  · rw [h, lookup_insert]
  · rw [lookup_insert_of_ne _ h]

theorem valueAt_alter (d : ν) (k k' : κ) (f : ν → ν) (m : Finmap fun _ : κ => ν) :
    (m.alter d k f).valueAt d k' = if k' = k then f (m.valueAt d k) else m.valueAt d k' := by
  unfold valueAt
  rw [lookup_alter]
  split_ifs <;> rfl

@[simp] theorem valueAt_empty (d : ν) (k : κ) : (∅ : Finmap fun _ : κ => ν).valueAt d k = d := by
  rw [valueAt, lookup_empty]
  rfl

omit [DecidableEq κ] in
/-- Rewrite every value. -/
def mapVals (f : κ → ν → ν) (m : Finmap fun _ : κ => ν) : Finmap fun _ : κ => ν where
  entries := m.entries.map fun e => ⟨e.1, f e.1 e.2⟩
  nodupKeys := by
    obtain ⟨es, h⟩ := m
    induction es using Quotient.inductionOn with
    | h l => exact List.NodupKeys.map₂ (fun k v => f k v) l h

theorem lookup_mapVals (f : κ → ν → ν) (k : κ) (m : Finmap fun _ : κ => ν) :
    (m.mapVals f).lookup k = (m.lookup k).map (f k) := by
  induction m using Finmap.induction_on with
  | H s => exact List.dlookup_map₂ k

end Finmap
