import YohdaOS.Lib.Memory

/-!
# Words on a stack

A stack that grows downwards through a memory, as the list of its words: the first one is at its
top, which is the lowest address.
-/

namespace ByteMem

/-- The words are at `a` and behind it. -/
def WordsAt (m : Mem) : ℕ → List (BitVec 32) → Prop
  | _, [] => True
  | a, w :: ws => load32 m a = w.toNat ∧ WordsAt m (a + 4) ws

namespace WordsAt

variable {m m' : Mem} {a : ℕ} {w : BitVec 32} {ws us : List (BitVec 32)}

theorem congr (h : WordsAt m a ws)
    (heq : ∀ x, a ≤ x → x < a + 4 * ws.length → m'.byte x = m.byte x) : WordsAt m' a ws := by
  induction ws generalizing a with
  | nil => trivial
  | cons w ws ih =>
    obtain ⟨hw, hws⟩ := h
    rw [List.length_cons] at heq
    refine ⟨?_, ih hws fun x hx hx' => heq x (by omega) (by omega)⟩
    rw [load32_congr fun x hx hx' => heq x hx (by omega), hw]

theorem push (h : WordsAt m a ws) (ha : 4 ≤ a) (w : BitVec 32) :
    WordsAt (store32 m (a - 4) w.toNat) (a - 4) (w :: ws) := by
  refine ⟨load32_store32 m (a - 4) w.isLt, ?_⟩
  rw [Nat.sub_add_cancel ha]
  exact h.congr fun x hx _ => frame_store32 m (a - 4) _ x (by omega)

theorem head (h : WordsAt m a (w :: ws)) : load32 m a = w.toNat := h.1

theorem tail (h : WordsAt m a (w :: ws)) : WordsAt m (a + 4) ws := h.2

theorem drop (h : WordsAt m a (us ++ ws)) : WordsAt m (a + 4 * us.length) ws := by
  induction us generalizing a with
  | nil => exact h
  | cons u us ih =>
    have hrest := ih h.tail
    rw [show a + 4 * (u :: us).length = a + 4 + 4 * us.length by rw [List.length_cons]; omega]
    exact hrest

theorem append (hus : WordsAt m a us) (hws : WordsAt m (a + 4 * us.length) ws) :
    WordsAt m a (us ++ ws) := by
  induction us generalizing a with
  | nil => exact hws
  | cons u us ih =>
    refine ⟨hus.head, ih hus.tail ?_⟩
    rw [show a + 4 + 4 * us.length = a + 4 * (u :: us).length by rw [List.length_cons]; omega]
    exact hws

/-- Some words are at every address. -/
theorem exists_words (m : Mem) (a n : ℕ) : ∃ us, us.length = n ∧ WordsAt m a us := by
  induction n generalizing a with
  | zero => exact ⟨[], rfl, trivial⟩
  | succ n ih =>
    obtain ⟨us, hlength, hus⟩ := ih (a + 4)
    refine ⟨BitVec.ofNat 32 (load32 m a) :: us, by rw [List.length_cons, hlength], ?_, hus⟩
    rw [BitVec.toNat_ofNat, Nat.mod_eq_of_lt (load32_lt m a)]

/-- The word number `i`. -/
theorem get (h : WordsAt m a ws) {i : ℕ} (hi : i < ws.length) :
    load32 m (a + 4 * i) = (ws[i]).toNat := by
  induction ws generalizing a i with
  | nil => exact absurd hi (Nat.not_lt_zero i)
  | cons w ws ih =>
    cases i with
    | zero => exact h.head
    | succ i =>
      have hrest := ih h.tail (i := i) (by simpa using hi)
      rw [show a + 4 * (i + 1) = a + 4 + 4 * i by omega]
      exact hrest

end WordsAt

end ByteMem
