import YohdaOS.Lib.Memory
import YohdaOS.Lib.Runs

/-!
# Objects in memory

An allocator hands out ranges of addresses; their holders write into them and give them back.  A
`Store` is what the holders may rely on: which objects are out, and the bytes they have written.
A memory `Agrees` with it where every byte that was written still reads as written.
-/

namespace Objects

open ByteMem

/-- An object `p` has the `p.2` addresses from `p.1` on. -/
def Covers (p : ℕ × ℕ) (x : ℕ) : Prop := p.1 ≤ x ∧ x < p.1 + p.2

instance (p : ℕ × ℕ) (x : ℕ) : Decidable (Covers p x) := inferInstanceAs (Decidable (_ ∧ _))

inductive Event where
  | alloc (n : ℕ) (p : ℕ × ℕ)
  | refuse
  | free (p : ℕ × ℕ)
  | write (p : ℕ × ℕ) (x v : ℕ)

@[ext] structure Store where
  live : Set (ℕ × ℕ)
  known : ℕ → Option (BitVec 8)

namespace Store

variable {h : Store} {m m' : Mem} {p : ℕ × ℕ} {x v : ℕ}

/-- Nothing is out. -/
def empty : Store := ⟨∅, fun _ => none⟩

/-- What was written into `p` is forgotten when `p` goes back. -/
def forget (known : ℕ → Option (BitVec 8)) (p : ℕ × ℕ) : ℕ → Option (BitVec 8) :=
  fun x => if Covers p x then none else known x

/-- An object that is handed out has room for the request and meets no other one; objects are given
back and written by their holders only. -/
inductive Step (h : Store) : Event → Store → Prop
  | alloc (n : ℕ) (p : ℕ × ℕ) (hpos : 0 < n) (hroom : n ≤ p.2)
      (hapart : ∀ q ∈ h.live, ¬ Meets p.1 p.2 q.1 q.2) :
      Step h (.alloc n p) ⟨insert p h.live, h.known⟩
  | refuse : Step h .refuse h
  | free (p : ℕ × ℕ) (hp : p ∈ h.live) : Step h (.free p) ⟨h.live \ {p}, forget h.known p⟩
  | write (p : ℕ × ℕ) (x v : ℕ) (hp : p ∈ h.live) (hx : Covers p x) :
      Step h (.write p x v) ⟨h.live, Function.update h.known x (some (BitVec.ofNat 8 v))⟩

theorem forget_of_not_covers {known : ℕ → Option (BitVec 8)} (hx : ¬ Covers p x) :
    forget known p x = known x :=
  if_neg hx

/-- Every byte that is known lies in an object that is out. -/
def Owned (h : Store) : Prop := ∀ x, h.known x ≠ none → ∃ p ∈ h.live, Covers p x

theorem owned_empty : Owned empty := fun _ hx => absurd rfl hx

theorem Owned.step {e : Event} {h' : Store} (ho : Owned h) (hstep : Step h e h') : Owned h' := by
  intro x hx
  cases hstep with
  | alloc n p hpos hroom hapart =>
    obtain ⟨q, hq, hcov⟩ := ho x hx
    exact ⟨q, Set.mem_insert_of_mem p hq, hcov⟩
  | refuse => exact ho x hx
  | free p hp =>
    have hout : ¬ Covers p x := fun hc => hx (if_pos hc)
    change forget h.known p x ≠ none at hx
    rw [forget_of_not_covers hout] at hx
    obtain ⟨q, hq, hcov⟩ := ho x hx
    refine ⟨q, ⟨hq, ?_⟩, hcov⟩
    rintro rfl
    exact hout hcov
  | write p y v hp hy =>
    by_cases hxy : x = y
    · exact ⟨p, hp, hxy ▸ hy⟩
    · change Function.update h.known y _ x ≠ none at hx
      rw [Function.update_of_ne hxy] at hx
      exact ho x hx

/-! ## Memories that agree -/

/-- Every byte that is known reads as it was written. -/
def Agrees (h : Store) (m : Mem) : Prop := ∀ x v, h.known x = some v → m.byte x = v

theorem agrees_empty (m : Mem) : Agrees empty m := fun _ _ h => nomatch h

/-- What changes outside the objects does not matter. -/
theorem Agrees.of_eq (ha : Agrees h m) (ho : Owned h)
    (hm : ∀ p ∈ h.live, ∀ x, Covers p x → m'.byte x = m.byte x) : Agrees h m' := by
  intro x v hv
  obtain ⟨p, hp, hx⟩ := ho x (by rw [hv]; exact Option.some_ne_none v)
  rw [hm p hp x hx]
  exact ha x v hv

theorem Agrees.forget (ha : Agrees h m) (p : ℕ × ℕ) (live : Set (ℕ × ℕ)) :
    Agrees ⟨live, Store.forget h.known p⟩ m := by
  intro x v hv
  change Store.forget h.known p x = some v at hv
  by_cases hx : Covers p x
  · rw [Store.forget, if_pos hx] at hv
    cases hv
  · rw [forget_of_not_covers hx] at hv
    exact ha x v hv

theorem Agrees.write (ha : Agrees h m) (x v : ℕ) :
    Agrees ⟨h.live, Function.update h.known x (some (BitVec.ofNat 8 v))⟩ (store8 m x v) := by
  intro y w hw
  change Function.update h.known x _ y = some w at hw
  by_cases hyx : y = x
  · subst hyx
    rw [Function.update_self] at hw
    rw [byte_store8_self]
    exact Option.some.inj hw
  · rw [Function.update_of_ne hyx] at hw
    rw [byte_store8_of_ne m v hyx]
    exact ha y w hw

end Store

end Objects
