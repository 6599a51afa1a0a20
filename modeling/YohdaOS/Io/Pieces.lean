import YohdaOS.Io.Printf

/-!
# Formatted output

A format is a row of characters and conversions.  The array has what they have put so far, and
zeros behind it.
-/

namespace YohdaOS.Io

/-- The characters that the table lets through. -/
def visible (c : BitVec 8) : Bool := c = 0x0A ∨ 0x20 ≤ c ∧ c ≤ 0x7E

/-- A part of a format: a character, or a conversion with its argument. -/
inductive Piece where
  | plain (c : BitVec 8)
  | conv (f : Parse) (w : BitVec 32)
deriving DecidableEq, Repr

/-- The parts of a format of visible characters, where `parse` stands for what the letters behind the
next `%` may not say, and `k` arguments are taken.  A letter that says nothing is no conversion while
`parse` is null. -/
def pieces (caller : Caller) : Option Parse → ℕ → List (BitVec 8) → Option (List Piece)
  | _, _, [] => some []
  | parse, k, c :: s =>
    if c = 0x25 then
      match s with
      | [] => some []
      | d :: s =>
        match (Parse.ofLetter d).or parse with
        | none => none
        | some f => (pieces caller (some f) (k + 1) s).map (.conv f (caller.arg k) :: ·)
    else (pieces caller parse k s).map (.plain c :: ·)

namespace Piece

/-- The bytes that are put for the part. -/
def bytes (caller : Caller) : Piece → List (BitVec 8)
  | plain c => [c]
  | conv f w => caller.bytes f w

/-- The string that they are. -/
def text (caller : Caller) : Piece → List (BitVec 8)
  | plain c => [c]
  | conv f w => cstr (caller.bytes f w)

end Piece

/-- The parts can be put behind `n` bytes, and leave room for the end of the string. -/
def FitBehind (caller : Caller) : ℕ → List Piece → Prop
  | n, [] => n < IO_STR_LEN
  | n, q :: ps => n + (q.bytes caller).length ≤ IO_STR_LEN ∧
      FitBehind caller (n + (q.text caller).length) ps

instance decidableFitBehind (caller : Caller) : (n : ℕ) → (ps : List Piece) →
    Decidable (FitBehind caller n ps)
  | n, [] => inferInstanceAs (Decidable (n < IO_STR_LEN))
  | n, q :: ps =>
    have := decidableFitBehind caller (n + (q.text caller).length) ps
    inferInstanceAs (Decidable (_ ∧ _))

/-- The output with the parts behind it, where they fit. -/
def withPieces (caller : Caller) (out : List (BitVec 8)) (ps : List Piece) :
    Option (List (BitVec 8)) :=
  if FitBehind caller out.length ps then some (out ++ ps.flatMap (Piece.text caller)) else none

variable {caller : Caller} {c : BitVec 8} {out t : List (BitVec 8)} {pi : PrInfo} {v : Printf}
  {n k : ℕ} {ps : List Piece}

theorem printable_eq : ∀ c : BitVec 8, printable c =
    if c.toNat < 128 then some (if visible c then (if c = 0x25 then 2 else 1) else 0) else none := by
  decide +kernel

theorem fitBehind_lt (h : FitBehind caller n ps) : n < IO_STR_LEN := by
  induction ps generalizing n with
  | nil => exact h
  | cons q ps ih => exact lt_of_le_of_lt (Nat.le_add_right _ _) (ih h.2)

theorem withPieces_cons (caller : Caller) (out : List (BitVec 8)) (q : Piece) (ps : List Piece) :
    withPieces caller out (q :: ps) =
      if out.length + (q.bytes caller).length ≤ IO_STR_LEN then
        withPieces caller (out ++ q.text caller) ps
      else none := by
  simp only [withPieces, FitBehind, ite_and, List.length_append, List.flatMap_cons,
    List.append_assoc]

theorem withPieces_nil (hout : out.length < IO_STR_LEN) : withPieces caller out [] = some out := by
  have hfit : FitBehind caller out.length [] := hout
  rw [withPieces, if_pos hfit, List.flatMap_nil, List.append_nil]

theorem withPieces_full (hout : IO_STR_LEN ≤ out.length) (ps : List Piece) :
    withPieces caller out ps = none := by
  rw [withPieces, if_neg]
  exact fun h => absurd (fitBehind_lt h) (not_lt.2 hout)

/-- A part that has room goes behind the output before the others. -/
theorem bind_withPieces_cons {q : Piece} (hroom : out.length + (q.bytes caller).length ≤ IO_STR_LEN)
    (o : Option (List Piece)) : (o.map (q :: ·)).bind (withPieces caller out) =
      o.bind (withPieces caller (out ++ q.text caller)) := by
  cases o with
  | none => rfl
  | some ps =>
    rw [Option.map_some, Option.bind_some, Option.bind_some, withPieces_cons, if_pos hroom]

theorem bind_withPieces_eq_none {q : Piece}
    (h : ¬(out.length + (q.bytes caller).length ≤ IO_STR_LEN ∧
      out.length + (q.text caller).length < IO_STR_LEN)) (o : Option (List Piece)) :
    (o.map (q :: ·)).bind (withPieces caller out) = none := by
  cases o with
  | none => rfl
  | some ps =>
    rw [Option.map_some, Option.bind_some, withPieces_cons]
    split_ifs with hroom
    · apply withPieces_full
      rw [List.length_append]
      exact not_lt.1 fun hend => h ⟨hroom, hend⟩
    · rfl

theorem notMem_strBytes (caller : Caller) (w : BitVec 32) : (0 : BitVec 8) ∉ caller.strBytes w := by
  rw [Caller.strBytes, Text.take_strlen]
  split_ifs
  · exact List.not_mem_nil
  · exact List.not_mem_nil
  · exact notMem_cstr _

/-- The bytes of a part are its string and zeros. -/
theorem Parse.bytes_eq (caller : Caller) (f : Parse) (w : BitVec 32) :
    ∃ k, caller.bytes f w = cstr (caller.bytes f w) ++ List.replicate k 0 := by
  have hscratch {s : List (BitVec 8)} (hs : (0 : BitVec 8) ∉ s) :
      ∃ k, scratch s = cstr (scratch s) ++ List.replicate k 0 := by
    refine ⟨INT_MAX_DIG - s.length, ?_⟩
    rw [scratch, cstr_append_zeros hs]
  cases f with
  | int =>
    obtain ⟨t, ht, hzero, -⟩ := itoa_text w
    rw [Caller.bytes, ht]
    exact hscratch hzero
  | char =>
    rw [Caller.bytes]
    by_cases hw : w.setWidth 8 = 0
    · refine ⟨1, ?_⟩
      rw [hw]
      rfl
    · refine ⟨0, ?_⟩
      rw [cstr_of_notMem (by simpa using Ne.symm hw)]
      simp
  | str =>
    refine ⟨0, ?_⟩
    rw [Caller.bytes, cstr_of_notMem (notMem_strBytes caller w)]
    simp
  | hex =>
    rw [Caller.bytes, itoh_eq]
    exact hscratch (notMem_numeral (by decide) le_rfl _)

/-! ## The array -/

/-- The array has the output, and zeros behind it. -/
structure PrInfo.Has (pi : PrInfo) (out : List (BitVec 8)) : Prop where
  len : pi.len = out.length
  buf : ∀ j, pi.buf j = out.getD j 0
  nonzero : (0 : BitVec 8) ∉ out

theorem PrInfo.Has.strlen (h : pi.Has out) :
    pi.strlen = if out.length < IO_STR_LEN then some out.length else none := by
  have hne {j : ℕ} (hj : j < out.length) : pi.buf j ≠ 0 := by
    rw [h.buf, List.getD_eq_getElem _ _ hj]
    exact ne_of_mem_of_not_mem (List.getElem_mem hj) h.nonzero
  rw [PrInfo.strlen]
  split_ifs with hlt
  · rw [List.find?_range_eq_some]
    refine ⟨?_, List.mem_range.2 hlt, fun j hj => ?_⟩
    · rw [h.buf, List.getD_eq_default _ _ le_rfl]
      rfl
    · simpa using hne hj
  · rw [List.find?_range_eq_none]
    intro j hj
    simpa using hne (by omega)

/-- Bytes that are put behind the output, a string `t` and zeros, make it longer by `t`. -/
theorem PrInfo.Has.put (h : pi.Has out) (ht : (0 : BitVec 8) ∉ t)
    (hroom : out.length + (t ++ List.replicate k 0).length ≤ IO_STR_LEN) :
    ∃ pi', pi.put pi.len (t ++ List.replicate k 0) = some pi' ∧ pi'.args = pi.args ∧
      ∀ n, n = (out ++ t).length → PrInfo.Has { pi' with len := n } (out ++ t) := by
  have hnonzero : (0 : BitVec 8) ∉ out ++ t := by
    rw [List.mem_append, not_or]
    exact ⟨h.nonzero, ht⟩
  rw [PrInfo.put, h.len]
  split_ifs with hempty
  · obtain rfl : t = [] := by
      rw [List.length_append] at hempty
      exact List.eq_nil_of_length_eq_zero (by omega)
    rw [List.append_nil] at hnonzero ⊢
    exact ⟨pi, rfl, rfl, fun n hn => ⟨hn, h.buf, h.nonzero⟩⟩
  · refine ⟨_, rfl, rfl, fun n hn => ⟨hn, fun j => ?_, hnonzero⟩⟩
    simp only
    split_ifs with hj
    · rw [List.getD_append_right _ _ _ _ hj.1]
      obtain hlt | hge := lt_or_ge (j - out.length) t.length
      · rw [List.getD_append _ _ _ _ hlt]
      · rw [List.getD_append_right _ _ _ _ hge, List.getD_eq_default _ _ hge, List.getD_replicate]
        rw [List.length_append, List.length_replicate] at hj
        omega
    · rw [h.buf]
      obtain hlt | hge := lt_or_ge j out.length
      · rw [List.getD_append _ _ _ _ hlt]
      · rw [List.length_append, List.length_replicate] at hj
        rw [List.getD_eq_default _ _ hge, List.getD_eq_default]
        rw [List.length_append]
        omega

theorem PrInfo.Has.text (h : v.pi.Has out) (hout : out.length < IO_STR_LEN) : v.text = some out := by
  rw [Printf.text, h.strlen, if_pos hout, Option.map_some]
  congr 1
  apply List.ext_getElem
  · simp
  · intro j _ hj
    simp [h.buf, hj]

theorem PrInfo.put_eq_none {bytes : List (BitVec 8)} {idx : ℕ} (hne : bytes ≠ [])
    (h : IO_STR_LEN < idx + bytes.length) : pi.put idx bytes = none := by
  rw [PrInfo.put, if_neg, if_neg (by omega)]
  have hpos := List.length_pos_iff.2 hne
  omega

/-- A conversion puts its string behind the output where there is room for its bytes and for the end
of the string, and fails otherwise. -/
theorem PrInfo.Has.parseArg (h : pi.Has out) (caller : Caller) (f : Parse) (hout : out.length ≤ IO_STR_LEN) :
    let q := Piece.conv f (caller.arg pi.args)
    (out.length + (q.bytes caller).length ≤ IO_STR_LEN ∧
        out.length + (q.text caller).length < IO_STR_LEN ∧
        ∃ pi', f.call caller pi pi.len = some pi' ∧ pi'.args = pi.args + 1 ∧
          pi'.Has (out ++ q.text caller)) ∨
      f.call caller pi pi.len = none ∧
        ¬(out.length + (q.bytes caller).length ≤ IO_STR_LEN ∧
          out.length + (q.text caller).length < IO_STR_LEN) := by
  intro q
  have hcall : f.call caller pi pi.len = PrInfo.parseArg caller (caller.bytes f) pi pi.len := by
    cases f <;> rfl
  rw [hcall, PrInfo.parseArg]
  by_cases hroom : out.length + (q.bytes caller).length ≤ IO_STR_LEN
  · obtain ⟨k, hk⟩ := Parse.bytes_eq caller f (caller.arg pi.args)
    have hbytes : q.bytes caller = q.text caller ++ List.replicate k 0 := hk
    rw [hbytes] at hroom
    have hnext : ({ pi with args := pi.args + 1 } : PrInfo).Has out := ⟨h.len, h.buf, h.nonzero⟩
    obtain ⟨pi', hput, hargs, hhas⟩ := hnext.put (notMem_cstr _) hroom
    have hstrlen : pi'.strlen = _ := (hhas _ rfl).strlen
    have hcopied : ({ pi with args := pi.args + 1 } : PrInfo).put pi.len
        (caller.bytes f (caller.arg pi.args)) = some pi' := by
      rw [hk]
      exact hput
    rw [hbytes]
    simp only [hcopied, Option.bind_eq_bind, Option.bind_some, hstrlen, List.length_append]
    split_ifs with hend
    · exact Or.inl ⟨by simpa using hroom, hend, _, rfl, hargs, hhas _ (by simp)⟩
    · exact Or.inr ⟨rfl, fun hcon => hend hcon.2⟩
  · refine Or.inr ⟨?_, fun hcon => hroom hcon.1⟩
    have hne : q.bytes caller ≠ [] := by
      intro hnil
      rw [hnil, List.length_nil] at hroom
      omega
    have hfault : ({ pi with args := pi.args + 1 } : PrInfo).put pi.len
        (caller.bytes f (caller.arg pi.args)) = none := by
      apply PrInfo.put_eq_none hne
      rw [h.len]
      exact not_le.1 hroom
    simp only [hfault, Option.bind_eq_bind, Option.bind_none]

/-! ## The loop -/

theorem step_high (hc : ¬c.toNat < 128) : v.step caller c = none := by
  simp only [Printf.step, printable_eq, if_neg hc, Option.bind_eq_bind, Option.bind_none]

theorem step_invisible (hc : c.toNat < 128) (hvis : visible c = false) :
    v.step caller c = some v := by
  simp [Printf.step, printable_eq, hc, hvis]

theorem lt_of_visible : ∀ c : BitVec 8, visible c = true → c.toNat < 128 := by decide +kernel

theorem step_percent (hstate : v.state = PRINT_NORMAL) :
    v.step caller 0x25 = some { v with state := PRINT_FORMAT } := by
  have hkind : printable 0x25 = some 2 := by decide
  rw [Printf.step, hkind]
  simp [Printf.branch, hstate, PRINT_FORMAT, PRINT_CHAR]

theorem step_plain (hstate : v.state = PRINT_NORMAL) (hvis : visible c = true) (hc : c ≠ 0x25) :
    v.step caller c = (v.pi.put v.pi.len [c]).map fun pi =>
      { v with state := PRINT_NORMAL, pi := { pi with len := v.pi.len + 1 } } := by
  have hkind : printable c = some 1 := by
    rw [printable_eq, if_pos (lt_of_visible c hvis), hvis, if_pos rfl, if_neg hc]
  rw [Printf.step, hkind]
  cases hput : v.pi.put v.pi.len [c] with
  | none => simp [Printf.branch, hstate, hput, PRINT_CHAR]
  | some pi => simp [Printf.branch, hstate, hput, PRINT_CHAR]

/-- A character goes to the end of the output. -/
theorem PrInfo.Has.step_plain (h : v.pi.Has out) (hout : out.length < IO_STR_LEN)
    (hstate : v.state = PRINT_NORMAL) (hvis : visible c = true) (hc : c ≠ 0x25) :
    ∃ v', v.step caller c = some v' ∧ v'.pi.Has (out ++ [c]) ∧ v'.state = PRINT_NORMAL ∧
      v'.parse = v.parse ∧ v'.pi.args = v.pi.args := by
  have hzero : (0 : BitVec 8) ∉ [c] := by
    rw [List.mem_singleton]
    rintro rfl
    exact absurd hvis (by decide)
  obtain ⟨pi', hput, hargs, hhas⟩ := h.put (k := 0) hzero (by simp; omega)
  rw [List.replicate_zero, List.append_nil] at hput
  refine ⟨⟨PRINT_NORMAL, { pi' with len := v.pi.len + 1 }, v.parse⟩, ?_, ?_, rfl, rfl, hargs⟩
  · rw [Io.step_plain hstate hvis hc, hput, Option.map_some]
  · exact hhas _ (by rw [h.len, List.length_append, List.length_singleton])

theorem step_letter (hstate : v.state = PRINT_FORMAT) (hvis : visible c = true) :
    v.step caller c = ((Parse.ofLetter c).or v.parse).bind fun f =>
      (f.call caller v.pi v.pi.len).map fun pi => ⟨PRINT_NORMAL, pi, some f⟩ := by
  obtain ⟨kind, hkind, hpos⟩ : ∃ kind, printable c = some kind ∧ kind ≠ 0 := by
    rw [printable_eq, if_pos (lt_of_visible c hvis), hvis, if_pos rfl]
    refine ⟨_, rfl, ?_⟩
    split_ifs <;> decide
  have hnormal : ¬v.state = PRINT_NORMAL := by
    rw [hstate]
    decide
  rw [Printf.step, hkind, Option.bind_eq_bind, Option.bind_some, if_neg hpos, Printf.branch,
    if_neg hnormal, if_pos hstate]
  cases (Parse.ofLetter c).or v.parse with
  | none => rfl
  | some f =>
    simp only [Option.bind_eq_bind, Option.bind_some]
    cases f.call caller v.pi v.pi.len with
    | none => rfl
    | some pi => rfl

/-- Where the array is full, nothing more can be put, and the string does not end. -/
theorem run_full (h : v.pi.Has out) (hout : out.length = IO_STR_LEN)
    (hstate : v.state = PRINT_NORMAL ∨ v.state = PRINT_FORMAT) (s : List (BitVec 8))
    (hs : ∀ c ∈ s, visible c = true) :
    (s.foldlM (Printf.step caller) v).bind Printf.text = none := by
  induction s generalizing v with
  | nil =>
    have hstrlen := h.strlen
    rw [if_neg (by omega)] at hstrlen
    simp [Printf.text, hstrlen]
  | cons c s ih =>
    have hvis := hs c (by simp)
    rw [List.foldlM_cons]
    obtain hstate | hstate := hstate
    · by_cases hc : c = 0x25
      · rw [hc, step_percent hstate]
        exact @ih { v with state := PRINT_FORMAT } h (Or.inr rfl) fun c hc => hs c (by simp [hc])
      · have hfault : v.pi.put v.pi.len [c] = none :=
          PrInfo.put_eq_none (List.cons_ne_nil _ _) (by rw [h.len, hout]; simp)
        rw [step_plain hstate hvis hc, hfault]
        rfl
    · rw [step_letter hstate hvis]
      cases (Parse.ofLetter c).or v.parse with
      | none => rfl
      | some f =>
        obtain ⟨-, hend, -⟩ | ⟨hfault, -⟩ := h.parseArg caller f hout.le
        · omega
        · simp [hfault]

/-- The rounds put the parts of the format one after another. -/
theorem run_pieces {parse : Option Parse} {s : List (BitVec 8)} (h : v.pi.Has out)
    (hout : out.length < IO_STR_LEN) (hstate : v.state = PRINT_NORMAL) (hparse : v.parse = parse)
    (hargs : v.pi.args = k) (hs : ∀ c ∈ s, visible c = true) :
    (s.foldlM (Printf.step caller) v).bind Printf.text =
      (pieces caller parse k s).bind (withPieces caller out) := by
  fun_induction pieces caller parse k s generalizing v out with
  | case1 =>
    rw [Option.bind_some, withPieces_nil hout]
    exact h.text hout
  | case2 parse k =>
    have hnext : ({ v with state := PRINT_FORMAT } : Printf).pi.Has out := h
    rw [List.foldlM_cons, step_percent hstate, Option.bind_some, withPieces_nil hout]
    exact hnext.text hout
  | case3 parse k d s hletter =>
    rw [List.foldlM_cons, step_percent hstate, Option.bind_eq_bind, Option.bind_some,
      List.foldlM_cons, step_letter rfl (hs d (by simp)), hparse, hletter]
    rfl
  | case4 parse k d s f hletter ih =>
    have hs' : ∀ c ∈ s, visible c = true := fun c hc => hs c (by simp [hc])
    rw [List.foldlM_cons, step_percent hstate, Option.bind_eq_bind, Option.bind_some,
      List.foldlM_cons, step_letter rfl (hs d (by simp)), hparse, hletter, Option.bind_some]
    obtain ⟨hroom, hend, pi', hcall, hargs', hhas⟩ | ⟨hfault, hno⟩ :=
      h.parseArg caller f hout.le
    · rw [hargs] at hroom hend hhas hargs'
      rw [hcall, bind_withPieces_cons hroom]
      exact @ih _ ⟨PRINT_NORMAL, pi', some f⟩ hhas (by rwa [List.length_append]) rfl rfl hargs' hs'
    · rw [hargs] at hno
      rw [hfault, bind_withPieces_eq_none hno]
      rfl
  | case5 parse k c s hc ih =>
    obtain ⟨v', hstep, hhas, hstate', hparse', hargs'⟩ := h.step_plain hout hstate (hs c (by simp)) hc
    have hs' : ∀ c ∈ s, visible c = true := fun c hc => hs c (List.mem_cons_of_mem _ hc)
    have hlen : (out ++ [c]).length = out.length + 1 := List.length_append
    have hroom : out.length + ((Piece.plain c).bytes caller).length ≤ IO_STR_LEN := hout
    rw [List.foldlM_cons, hstep, bind_withPieces_cons hroom, Option.bind_eq_bind, Option.bind_some,
      Piece.text]
    obtain hlt | hfull := lt_or_eq_of_le (show (out ++ [c]).length ≤ IO_STR_LEN by omega)
    · exact ih hhas hlt hstate' (hparse'.trans hparse) (hargs'.trans hargs) hs'
    · rw [run_full hhas hfull (Or.inl hstate') s hs']
      simp [withPieces_full hfull.ge]

theorem run_ascii {s : List (BitVec 8)} (hs : ∀ c ∈ s, c.toNat < 128) :
    s.foldlM (Printf.step caller) v = (s.filter visible).foldlM (Printf.step caller) v := by
  induction s generalizing v with
  | nil => rfl
  | cons c s ih =>
    have hs' : ∀ c ∈ s, c.toNat < 128 := fun c hc => hs c (List.mem_cons_of_mem _ hc)
    cases hvis : visible c with
    | true =>
      rw [List.filter_cons_of_pos hvis, List.foldlM_cons, List.foldlM_cons]
      cases v.step caller c with
      | none => rfl
      | some v' => exact ih hs'
    | false =>
      rw [List.filter_cons_of_neg (by simp [hvis]), List.foldlM_cons,
        step_invisible (hs c (by simp)) hvis]
      exact ih hs'

/-- A byte from 128 on is an index outside the table. -/
theorem run_not_ascii {s : List (BitVec 8)} (hs : ¬∀ c ∈ s, c.toNat < 128) :
    s.foldlM (Printf.step caller) v = none := by
  induction s generalizing v with
  | nil => exact absurd (by simp) hs
  | cons c s ih =>
    rw [List.foldlM_cons]
    by_cases hc : c.toNat < 128
    · have hrest : ¬∀ c ∈ s, c.toNat < 128 := fun hall => hs (by simpa [hc] using hall)
      cases v.step caller c with
      | none => rfl
      | some v' => exact ih hrest
    · rw [step_high hc]
      rfl

/-- What `vkprintf` flushes, where all its accesses are good. -/
theorem vkprintf_eq (caller : Caller) (parse : Option Parse) (fmt : List (BitVec 8)) :
    (vkprintf caller parse fmt).map Prod.fst =
      if ∀ c ∈ cstr fmt, c.toNat < 128 then
        (pieces caller parse 0 ((cstr fmt).filter visible)).bind (withPieces caller [])
      else none := by
  have hempty : PrInfo.Has ⟨0, 0, fun _ => 0⟩ [] := ⟨rfl, fun j => rfl, List.not_mem_nil⟩
  have hfst : (vkprintf caller parse fmt).map Prod.fst =
      ((cstr fmt).foldlM (Printf.step caller) ⟨PRINT_NORMAL, ⟨0, 0, fun _ => 0⟩, parse⟩).bind
        Printf.text := by
    rw [vkprintf]
    cases (cstr fmt).foldlM (Printf.step caller) ⟨PRINT_NORMAL, ⟨0, 0, fun _ => 0⟩, parse⟩ with
    | none => rfl
    | some v => cases hv : v.text <;> simp [hv]
  rw [hfst]
  split_ifs with hascii
  · rw [run_ascii hascii]
    refine run_pieces (v := ⟨PRINT_NORMAL, ⟨0, 0, fun _ => 0⟩, parse⟩) hempty (by decide) rfl rfl rfl ?_
    exact fun c hc => (List.mem_filter.1 hc).2
  · rw [run_not_ascii hascii]
    rfl

end YohdaOS.Io
