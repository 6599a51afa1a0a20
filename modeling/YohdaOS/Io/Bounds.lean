import YohdaOS.Io.Format

/-!
# The accesses of vkprintf

The array is left where the output is too long, or a number is put near its end: twelve bytes are
copied for it, however many digits it has.
-/

namespace YohdaOS.Io

namespace Piece

/-- The number of characters that the part has in the output. -/
def width (caller : Caller) : Piece → ℕ
  | plain _ => 1
  | conv .int w => (decimal w.toInt).length
  | conv .char w => if w.setWidth 8 = 0 then 0 else 1
  | conv .str w => if w = 0 then 0 else Text.strlen (caller.str w)
  | conv .hex w => (hexadecimal w).length

def IsNumber : Piece → Prop
  | conv .int _ => True
  | conv .hex _ => True
  | _ => False

end Piece

/-- There is room for the output and its end behind `n` characters, and for twelve bytes at each
number. -/
structure Room (caller : Caller) (n : ℕ) (ps : List Piece) : Prop where
  output : n + (ps.map (Piece.width caller)).sum ≤ 255
  number : ∀ pre q post, ps = pre ++ q :: post → q.IsNumber →
    n + (pre.map (Piece.width caller)).sum ≤ 244

variable {caller : Caller} {n : ℕ} {q : Piece} {ps : List Piece}

theorem Piece.length_text (caller : Caller) (q : Piece) :
    (q.text caller).length = q.width caller := by
  match q with
  | .plain c => rfl
  | .conv .int w =>
    obtain ⟨t, ht, hzero, hlen⟩ := itoa_text w
    rw [text, Caller.bytes, ht, cstr_scratch hzero, hlen, width]
  | .conv .char w =>
    rw [text, Caller.bytes, width]
    split_ifs with hw
    · rw [hw]
      rfl
    · rw [cstr_of_notMem (by simpa using Ne.symm hw), List.length_singleton]
  | .conv .str w =>
    rw [text, Caller.bytes, cstr_of_notMem (notMem_strBytes caller w), Caller.strBytes, width]
    split_ifs
    · rfl
    · rw [Text.take_strlen, Text.strlen]
      split_ifs <;> simp_all
  | .conv .hex w =>
    have hnum := notMem_numeral (by decide : 1 < 16) le_rfl w.toNat
    rw [text, Caller.bytes, itoh_eq, hexadecimal, cstr_scratch hnum, width, hexadecimal]

theorem Piece.length_bytes_of_number (h : q.IsNumber) : (q.bytes caller).length = 12 := by
  match q with
  | .conv .int w => exact length_itoa w
  | .conv .hex w => exact length_itoh w

/-- The bytes of another part are its characters, or a zero. -/
theorem Piece.length_bytes_of_not_number (caller : Caller) (h : ¬q.IsNumber) :
    (q.bytes caller).length = q.width caller ∨ (q.bytes caller).length = 1 := by
  match q with
  | .plain c => exact Or.inl rfl
  | .conv .int w => exact absurd trivial h
  | .conv .char w => exact Or.inr rfl
  | .conv .str w =>
    left
    rw [← length_text, bytes, text, Caller.bytes, cstr_of_notMem (notMem_strBytes caller w)]
  | .conv .hex w => exact absurd trivial h

theorem room_cons : Room caller n (q :: ps) ↔
    (q.IsNumber → n ≤ 244) ∧ Room caller (n + q.width caller) ps := by
  constructor
  · intro h
    have houtput := h.output
    rw [List.map_cons, List.sum_cons] at houtput
    refine ⟨fun hq => by simpa using h.number [] q ps rfl hq, by omega, ?_⟩
    rintro pre q' post rfl hq'
    have hnumber := h.number (q :: pre) q' post rfl hq'
    rw [List.map_cons, List.sum_cons] at hnumber
    omega
  · rintro ⟨hq, houtput, hnumber⟩
    constructor
    · rw [List.map_cons, List.sum_cons]
      omega
    · intro pre q' post heq hq'
      cases pre with
      | nil =>
        obtain ⟨rfl, -⟩ := List.cons.inj heq
        exact hq hq'
      | cons p pre =>
        obtain ⟨rfl, rfl⟩ := List.cons.inj heq
        have hpre := hnumber pre q' post rfl hq'
        rw [List.map_cons, List.sum_cons]
        omega

theorem fitBehind_iff : FitBehind caller n ps ↔ Room caller n ps := by
  induction ps generalizing n with
  | nil =>
    constructor
    · intro h
      exact ⟨Nat.le_of_lt_succ h, fun pre q post heq => absurd heq (by simp)⟩
    · intro h
      exact Nat.lt_succ_of_le h.output
  | cons q ps ih =>
    rw [FitBehind, room_cons, ih, Piece.length_text, IO_STR_LEN]
    by_cases hq : q.IsNumber
    · rw [Piece.length_bytes_of_number hq]
      simp only [hq, forall_const]
      apply and_congr_left'
      omega
    · simp only [hq, IsEmpty.forall_iff, true_and]
      apply and_iff_right_of_imp
      intro hroom
      have houtput := hroom.output
      obtain hlen | hlen := Piece.length_bytes_of_not_number caller hq
      · omega
      · omega

/-- The format keeps `vkprintf` in its arrays: its bytes are ASCII, a letter that is no conversion
comes behind one that is, or behind an earlier call, and there is room for the parts. -/
def SafeFormat (caller : Caller) (parse : Option Parse) (fmt : List (BitVec 8)) : Prop :=
  (∀ c ∈ cstr fmt, c.toNat < 128) ∧
    ∃ ps, pieces caller parse 0 ((cstr fmt).filter visible) = some ps ∧ Room caller 0 ps

/-- All accesses are in bounds, and the string ends in the array, exactly for such a format. -/
theorem vkprintf_safe_iff (caller : Caller) (parse : Option Parse) (fmt : List (BitVec 8)) :
    (vkprintf caller parse fmt).isSome ↔ SafeFormat caller parse fmt := by
  have hmap : (vkprintf caller parse fmt).isSome =
      ((vkprintf caller parse fmt).map Prod.fst).isSome := Option.isSome_map.symm
  rw [hmap, vkprintf_eq, SafeFormat]
  split_ifs with hascii
  · rw [and_iff_right hascii]
    cases pieces caller parse 0 ((cstr fmt).filter visible) with
    | none => simp
    | some ps =>
      rw [Option.bind_some, withPieces, List.length_nil]
      split_ifs with hfit
      · exact iff_of_true rfl ⟨ps, rfl, fitBehind_iff.1 hfit⟩
      · apply iff_of_false (by simp)
        rintro ⟨ps', hps, hroom⟩
        obtain rfl := Option.some.inj hps
        exact hfit (fitBehind_iff.2 hroom)
  · exact iff_of_false (by simp) fun h => hascii h.1

/-- A byte from 128 on. -/
theorem vkprintf_safe_fails : ¬∀ (caller : Caller) (parse : Option Parse) (fmt : List (BitVec 8)),
    (vkprintf caller parse fmt).isSome := by
  intro hall
  exact absurd (hall ⟨fun _ => 0, fun _ => []⟩ none [0x80]) (by decide)

end YohdaOS.Io
