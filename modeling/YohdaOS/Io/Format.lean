import YohdaOS.Io.Pieces

/-!
# What a format says

The expansion of a format, and the output of `vkprintf` for the formats that it knows.
-/

namespace YohdaOS.Io

/-- The string at an address; there is none at NULL. -/
def Caller.strAt (caller : Caller) (w : BitVec 32) : List (BitVec 8) :=
  if w = 0 then [] else cstr (caller.str w)

/-- The text of the argument `w` behind `%` and the letter `d`. -/
def Caller.argText (caller : Caller) (d : BitVec 8) (w : BitVec 32) : List (BitVec 8) :=
  if d = 0x64 then decimal w.toInt
  else if d = 0x63 then [w.setWidth 8]
  else if d = 0x73 then caller.strAt w
  else hexadecimal w

/-- The expansion of a format of visible characters, where `k` arguments are taken. -/
def expand (caller : Caller) : ℕ → List (BitVec 8) → List (BitVec 8)
  | _, [] => []
  | k, c :: s =>
    if c = 0x25 then
      match s with
      | [] => []
      | d :: s => caller.argText d (caller.arg k) ++ expand caller (k + 1) s
    else c :: expand caller k s

/-- The letter is a conversion, and the argument is one that it can put. -/
def ArgOk (d : BitVec 8) (w : BitVec 32) : Prop :=
  d = 0x64 ∧ w.toInt ≠ -2147483648 ∨ d = 0x63 ∧ w.setWidth 8 ≠ 0 ∨ d = 0x73 ∨ d = 0x78 ∨ d = 0x58

/-- Behind each `%` is a conversion with its argument. -/
def Proper (caller : Caller) : ℕ → List (BitVec 8) → Prop
  | _, [] => True
  | k, c :: s =>
    if c = 0x25 then
      match s with
      | [] => False
      | d :: s => ArgOk d (caller.arg k) ∧ Proper caller (k + 1) s
    else Proper caller k s

variable {caller : Caller} {d : BitVec 8} {w : BitVec 32} {n k : ℕ} {ps : List Piece}

theorem cstr_scratch {s : List (BitVec 8)} (hs : (0 : BitVec 8) ∉ s) : cstr (scratch s) = s :=
  cstr_append_zeros hs _

/-- A conversion puts the text of its argument. -/
theorem argText_of_letter (caller : Caller) (h : ArgOk d w) (hroom : (caller.argText d w).length < Text.INT_MAX)
    (parse : Option Parse) : ∃ f, (Parse.ofLetter d).or parse = some f ∧
      (Piece.conv f w).text caller = caller.argText d w := by
  obtain ⟨rfl, hw⟩ | ⟨rfl, hw⟩ | rfl | hx := h
  · refine ⟨.int, rfl, ?_⟩
    have hlo := BitVec.le_toInt w
    have hhi := BitVec.toInt_lt (x := w)
    rw [Piece.text, Caller.bytes, itoa_eq (by omega) (by omega), cstr_scratch (notMem_decimal _)]
    rfl
  · refine ⟨.char, rfl, ?_⟩
    rw [Piece.text, Caller.bytes, cstr_of_notMem (by simpa using hw.symm)]
    rfl
  · refine ⟨.str, rfl, ?_⟩
    have hstr : caller.argText 0x73 w = caller.strAt w := rfl
    rw [hstr, Caller.strAt] at hroom ⊢
    rw [Piece.text, Caller.bytes, Caller.strBytes, Text.take_strlen]
    split_ifs with hnull hmax
    · rfl
    · rw [if_neg hnull] at hroom
      omega
    · exact cstr_of_notMem (notMem_cstr _)
  · have hnum := notMem_numeral (by decide : 1 < 16) le_rfl w.toNat
    obtain rfl | rfl := hx
    · exact ⟨.hex, rfl, by rw [Piece.text, Caller.bytes, itoh_eq, hexadecimal, cstr_scratch hnum]; rfl⟩
    · exact ⟨.hex, rfl, by rw [Piece.text, Caller.bytes, itoh_eq, hexadecimal, cstr_scratch hnum]; rfl⟩

@[simp] theorem expand_conv (caller : Caller) (k : ℕ) (d : BitVec 8) (s : List (BitVec 8)) :
    expand caller k (0x25 :: d :: s) =
      caller.argText d (caller.arg k) ++ expand caller (k + 1) s := by
  rw [expand, if_pos rfl]

@[simp] theorem proper_conv (caller : Caller) (k : ℕ) (d : BitVec 8) (s : List (BitVec 8)) :
    Proper caller k (0x25 :: d :: s) ↔ ArgOk d (caller.arg k) ∧ Proper caller (k + 1) s := by
  rw [Proper, if_pos rfl]

theorem expand_plain {c : BitVec 8} (hc : c ≠ 0x25) (s : List (BitVec 8)) :
    expand caller k (c :: s) = c :: expand caller k s := by
  rw [expand.eq_def]
  exact if_neg hc

theorem proper_plain {c : BitVec 8} (hc : c ≠ 0x25) (s : List (BitVec 8)) :
    Proper caller k (c :: s) ↔ Proper caller k s := by
  rw [Proper.eq_def]
  exact Iff.of_eq (if_neg hc)

/-- The parts of a proper format are what it expands to. -/
theorem pieces_expand (parse : Option Parse) {s : List (BitVec 8)} (h : Proper caller k s)
    (hroom : (expand caller k s).length < Text.INT_MAX) :
    ∃ ps, pieces caller parse k s = some ps ∧
      ps.flatMap (Piece.text caller) = expand caller k s := by
  fun_induction pieces caller parse k s with
  | case1 => exact ⟨[], rfl, rfl⟩
  | case2 parse k => exact absurd h (by simp [Proper])
  | case3 parse k d s hletter =>
    rw [proper_conv] at h
    rw [expand_conv, List.length_append] at hroom
    obtain ⟨f, hf, -⟩ := argText_of_letter caller h.1 (by omega) parse
    rw [hletter] at hf
    cases hf
  | case4 parse k d s f hletter ih =>
    rw [proper_conv] at h
    rw [expand_conv, List.length_append] at hroom
    obtain ⟨f', hf, htext⟩ := argText_of_letter caller h.1 (by omega) parse
    rw [hletter] at hf
    obtain rfl := Option.some.inj hf
    obtain ⟨ps, hps, hexpand⟩ := ih h.2 (by omega)
    refine ⟨.conv f (caller.arg k) :: ps, by rw [hps, Option.map_some], ?_⟩
    rw [List.flatMap_cons, htext, hexpand, expand_conv]
  | case5 parse k c s hc ih =>
    rw [proper_plain hc] at h
    rw [expand_plain hc] at hroom ⊢
    rw [List.length_cons] at hroom
    obtain ⟨ps, hps, hexpand⟩ := ih h (by omega)
    refine ⟨.plain c :: ps, by rw [hps, Option.map_some], ?_⟩
    rw [List.flatMap_cons, hexpand]
    rfl

theorem length_scratch {s : List (BitVec 8)} (hs : s.length ≤ INT_MAX_DIG) :
    (scratch s).length = INT_MAX_DIG := by
  rw [scratch, List.length_append, List.length_replicate]
  omega

theorem length_itoa (w : BitVec 32) : (itoa w.toInt).length = INT_MAX_DIG := by
  obtain ⟨t, ht, -, hlen⟩ := itoa_text w
  have hlo := BitVec.le_toInt w
  have hhi := BitVec.toInt_lt (x := w)
  have hdecimal := length_decimal_le (n := w.toInt) (by omega) (by omega)
  rw [ht, length_scratch]
  rw [hlen, INT_MAX_DIG]
  omega

theorem length_itoh (w : BitVec 32) : (itoh w).length = INT_MAX_DIG := by
  have hlen := length_hexadecimal_le w
  rw [itoh_eq, length_scratch]
  rw [INT_MAX_DIG]
  omega

/-- At most twelve bytes of a part are not in its string. -/
theorem Piece.length_bytes_le (caller : Caller) (q : Piece) :
    (q.bytes caller).length ≤ (q.text caller).length + 12 := by
  match q with
  | .plain c => exact Nat.le_add_right _ _
  | .conv .int w =>
    rw [Piece.bytes, Caller.bytes, length_itoa]
    exact Nat.le_add_left _ _
  | .conv .char w =>
    rw [Piece.bytes, Caller.bytes, List.length_singleton]
    omega
  | .conv .str w =>
    rw [Piece.bytes, Piece.text, Caller.bytes, cstr_of_notMem (notMem_strBytes caller w)]
    exact Nat.le_add_right _ _
  | .conv .hex w =>
    rw [Piece.bytes, Caller.bytes, length_itoh]
    exact Nat.le_add_left _ _

theorem fitBehind_of_le (h : n + (ps.flatMap (Piece.text caller)).length + 12 ≤ IO_STR_LEN) :
    FitBehind caller n ps := by
  induction ps generalizing n with
  | nil =>
    rw [FitBehind]
    omega
  | cons q ps ih =>
    rw [List.flatMap_cons, List.length_append] at h
    have hbytes := q.length_bytes_le caller
    exact ⟨by omega, ih (by omega)⟩

/-- The string that is flushed is the expansion of the format, where there is room for it and for
the bytes of a number. -/
theorem vkprintf_expands (caller : Caller) (parse : Option Parse) (fmt : List (BitVec 8))
    (hascii : ∀ c ∈ cstr fmt, c.toNat < 128)
    (hproper : Proper caller 0 ((cstr fmt).filter visible))
    (hroom : (expand caller 0 ((cstr fmt).filter visible)).length + 12 ≤ IO_STR_LEN) :
    (vkprintf caller parse fmt).map Prod.fst =
      some (expand caller 0 ((cstr fmt).filter visible)) := by
  rw [IO_STR_LEN] at hroom
  obtain ⟨ps, hps, hexpand⟩ := pieces_expand parse hproper (by rw [Text.INT_MAX]; omega)
  have hfit : FitBehind caller ([] : List (BitVec 8)).length ps := by
    apply fitBehind_of_le
    rw [hexpand, List.length_nil, IO_STR_LEN]
    omega
  rw [vkprintf_eq, if_pos hascii, hps, Option.bind_some, withPieces, if_pos hfit, hexpand,
    List.nil_append]

/-- The format "%d %s", a line end between the letters of the second conversion. -/
theorem vkprintf_expands_answer :
    (vkprintf ⟨fun k => if k = 0 then -42 else 0x1000, fun _ => [0x6F, 0x6B, 0]⟩ none
        [0x25, 0x64, 0x20, 0x25, 0x01, 0x73, 0]).map Prod.fst =
      some (expand ⟨fun k => if k = 0 then -42 else 0x1000, fun _ => [0x6F, 0x6B, 0]⟩ 0
        ((cstr [0x25, 0x64, 0x20, 0x25, 0x01, 0x73, 0]).filter visible)) := by
  apply vkprintf_expands
  · decide
  · simp [cstr, visible, Proper, ArgOk]
  · decide

end YohdaOS.Io
