import YohdaOS.Lib.Memory

/-!
# Page tables

A table is an array of entries in physical memory.  An address is looked up level by level: bits of
the address choose the entry, and the entry says that nothing is there, names the next table, or
names a page.  A processor may keep translations it has looked up.
-/

namespace Paging

open ByteMem

/-- How the entries of the tables are laid out. -/
structure Format where
  /-- the bytes of an entry -/
  width : ℕ
  /-- the entries of a table -/
  fanout : ℕ
  load : Mem → ℕ → ℕ
  /-- an entry holds a physical address of that many bits -/
  bits : ℕ
  /-- an entry of the level that covers `2 ^ s` bytes may name a page -/
  large : ℕ → Bool

/-- The entry at the level that covers `2 ^ s` bytes. -/
def Format.entry (f : Format) (m : Mem) (table s v : ℕ) : ℕ :=
  f.load m (table + f.width * (v / 2 ^ s % f.fanout))

/-- The page or the table of `2 ^ s` bytes that an entry names. -/
def Format.base (f : Format) (e s : ℕ) : ℕ := e % 2 ^ f.bits / 2 ^ s * 2 ^ s

/-- Look up `v` from `table` down; a level covers `2 ^ s` bytes with each entry, for `s` in the list. -/
def Format.walk (f : Format) (m : Mem) (table v : ℕ) : List ℕ → Option ℕ
  | [] => none
  | s :: ss =>
    let e := f.entry m table s v
    if e % 2 = 0 then none
    else if ss = [] ∨ (f.large s = true ∧ e / 128 % 2 = 1) then some (f.base e s + v % 2 ^ s)
    else f.walk m (f.base e 12) v ss

variable {f : Format} {m m' : Mem} {table v s : ℕ} {ss : List ℕ}

/-- An entry that is not present. -/
theorem walk_absent (he : f.entry m table s v % 2 = 0) : f.walk m table v (s :: ss) = none := by
  rw [Format.walk]
  exact if_pos he

/-- An entry that names a large page. -/
theorem walk_large (hlarge : f.large s = true) {e : ℕ} (he : f.entry m table s v = e)
    (hpresent : e % 2 = 1) (hsize : e / 128 % 2 = 1) :
    f.walk m table v (s :: ss) = some (f.base e s + v % 2 ^ s) := by
  simp only [Format.walk, he]
  rw [if_neg (by omega), if_pos (Or.inr ⟨hlarge, hsize⟩)]

/-- An entry that names a table. -/
theorem walk_table (hss : ss ≠ []) {e : ℕ} (he : f.entry m table s v = e) (hpresent : e % 2 = 1)
    (hsize : e / 128 % 2 = 0) :
    f.walk m table v (s :: ss) = f.walk m (f.base e 12) v ss := by
  simp only [Format.walk, he]
  rw [if_neg (by omega), if_neg]
  rintro (hnil | ⟨-, hone⟩)
  · exact hss hnil
  · omega

theorem base_of_lt {e p : ℕ} (hlt : e < 2 ^ f.bits) (hdiv : e / 2 ^ s * 2 ^ s = p) :
    f.base e s = p := by
  rw [Format.base, Nat.mod_eq_of_lt hlt, hdiv]

/-! ## Kept translations -/

/-- The frames that are kept for pages of `2 ^ s` bytes. -/
def Tlb : Type := ℕ → Option ℕ

namespace Tlb

def empty : Tlb := fun _ => none

/-- Forget what is kept for the page of `v`. -/
def drop (t : Tlb) (s v : ℕ) : Tlb := fun q => if q = v / 2 ^ s then none else t q

/-- A kept frame is used before the tables are looked at. -/
def translate (t : Tlb) (s : ℕ) (walk : ℕ → Option ℕ) (v : ℕ) : Option ℕ :=
  match t (v / 2 ^ s) with
  | some p => some (p + v % 2 ^ s)
  | none => walk v

/-- What is kept is what the tables say. -/
def Coherent (t : Tlb) (s : ℕ) (walk : ℕ → Option ℕ) : Prop :=
  ∀ q p, t q = some p → ∀ v, v / 2 ^ s = q → walk v = some (p + v % 2 ^ s)

theorem coherent_empty (s : ℕ) (walk : ℕ → Option ℕ) : Coherent empty s walk :=
  fun _ _ h => nomatch h

/-- Then nobody can tell that it is kept. -/
theorem Coherent.translate_eq {t : Tlb} {s : ℕ} {walk : ℕ → Option ℕ} (h : t.Coherent s walk)
    (v : ℕ) : t.translate s walk v = walk v := by
  unfold translate
  cases ht : t (v / 2 ^ s) with
  | none => rfl
  | some p => exact (h _ p ht v rfl).symm

/-- Where the tables change for one page, it is enough to forget that page. -/
theorem Coherent.drop {t : Tlb} {s a : ℕ} {walk walk' : ℕ → Option ℕ} (h : t.Coherent s walk)
    (hsame : ∀ v, v / 2 ^ s ≠ a / 2 ^ s → walk' v = walk v) : (t.drop s a).Coherent s walk' := by
  intro q p hq v hv
  unfold Tlb.drop at hq
  split at hq
  · cases hq
  · rename_i hne
    rw [hsame v (by rw [hv]; exact hne)]
    exact h q p hq v hv

end Tlb

end Paging
