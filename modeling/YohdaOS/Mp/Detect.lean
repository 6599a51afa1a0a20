import YohdaOS.Mp.Core

/-!
# What passes for an MP structure

`strcmp` compares no more characters than the shorter string has, and the length that a structure
announces is not checked.  Bytes whose signature is cut off by a zero, or whose length does not
cover the structure, are taken for a structure if their sum is right.
-/

namespace YohdaOS.Mp

open ByteMem

/-- The string at a pointer has `n` characters. -/
def HasLen (str : ℕ → BitVec 8) (n : ℕ) : Prop := str n = 0 ∧ ∀ i < n, str i ≠ 0

/-- The string does not end before the counter of `strlen` overflows. -/
def Endless (str : ℕ → BitVec 8) : Prop := ∀ n ≤ Text.INT_MAX, str n ≠ 0

/-- The size of the structure that has the signature. -/
def sizeofMp (sig : List (BitVec 8)) : ℕ := if sig = MP_FPS_SIG then sizeofMpFps else sizeofMpConfTab

/-- The bytes that the structure announces sum to zero. -/
def SumsToZero (sig : List (BitVec 8)) (mp : ℕ → BitVec 8) : Prop :=
  (∑ i ∈ Finset.range (mpLen sig mp), (mp i).toNat) % 256 = 0

/-- The structure with that signature. -/
structure IsMp (sig : List (BitVec 8)) (mp : ℕ → BitVec 8) : Prop where
  sig_eq : ∀ i < 4, mp i = literal sig i
  covers : sizeofMp sig ≤ mpLen sig mp
  sum : SumsToZero sig mp

/-- The signature begins at `mp`, but a zero comes before its end; or so many characters follow that
`strlen` returns 0, and only the first one is compared. -/
def CutOff (sig : List (BitVec 8)) (mp : ℕ → BitVec 8) : Prop :=
  ∃ n, HasLen mp n ∧
    ((0 < n ∧ n < 4 ∧ ∀ i < n, mp i = literal sig i) ∨
      (n = Text.INT_MAX ∧ mp 0 = literal sig 0 ∧ ∃ i < 4, mp i ≠ literal sig i))

/-- The signature is there, but the length announced does not cover the structure. -/
def Short (sig : List (BitVec 8)) (mp : ℕ → BitVec 8) : Prop :=
  ¬Endless mp ∧ (∀ i < 4, mp i = literal sig i) ∧ mpLen sig mp < sizeofMp sig

/-- Bytes that are no such structure, but pass for one. -/
def Imposter (sig : List (BitVec 8)) (mp : ℕ → BitVec 8) : Prop :=
  SumsToZero sig mp ∧ (CutOff sig mp ∨ Short sig mp)

variable {m : Mem} {str mp s₁ s₂ : ℕ → BitVec 8} {sig : List (BitVec 8)}
  {base fuel i k n num p q size stop : ℕ}

/-! ## Strings -/

theorem strlenLoop_of_hasLen (h : str n = 0) (hne : ∀ i, k ≤ i → i < n → str i ≠ 0) (hle : k ≤ n)
    (hfuel : n < k + fuel) : strlenLoop str fuel k = some n := by
  induction fuel generalizing k with
  | zero => omega
  | succ fuel ih =>
    obtain rfl | hlt := hle.eq_or_lt
    · exact if_pos h
    · rw [strlenLoop, if_neg (hne k le_rfl hlt)]
      exact ih (fun i hi => hne i (by omega)) hlt (by omega)

theorem strlenLoop_eq_none (hne : ∀ i, k ≤ i → i < k + fuel → str i ≠ 0) :
    strlenLoop str fuel k = none := by
  induction fuel generalizing k with
  | zero => rfl
  | succ fuel ih =>
    rw [strlenLoop, if_neg (hne k le_rfl (by omega))]
    exact ih fun i hi hlt => hne i (by omega) (by omega)

theorem strlen_of_hasLen (h : HasLen str n) (hle : n ≤ Text.INT_MAX) :
    strlen str = some (if n ≠ Text.INT_MAX then n else 0) := by
  rw [strlen, strlenLoop_of_hasLen h.1 (fun i _ => h.2 i) (Nat.zero_le n) (by omega)]
  rfl

theorem strlen_of_endless (h : Endless str) : strlen str = none := by
  rw [strlen, strlenLoop_eq_none fun i _ hlt => h i (by omega)]
  rfl

theorem exists_hasLen (h : ¬Endless str) : ∃ n ≤ Text.INT_MAX, HasLen str n := by
  have hex : ∃ n, str n = 0 := by
    by_contra hall
    exact h fun n _ hzero => hall ⟨n, hzero⟩
  refine ⟨Nat.find hex, ?_, Nat.find_spec hex, fun i hi => Nat.find_min hex hi⟩
  by_contra hlt
  exact h fun n hn => Nat.find_min hex (by omega)

theorem HasLen.not_endless (h : HasLen str n) (hle : n ≤ Text.INT_MAX) : ¬Endless str :=
  fun hend => hend n hle h.1

theorem HasLen.unique (h : HasLen str n) (h' : HasLen str k) : n = k := by
  by_contra hne
  obtain hlt | hlt := Nat.lt_or_gt_of_ne hne
  · exact h'.2 n hlt h.1
  · exact h.2 k hlt h'.1

theorem strncmpLoop_eq_zero :
    strncmpLoop s₁ s₂ num i = 0 ↔ ∀ j < num, s₁ (i + j) = s₂ (i + j) := by
  induction num generalizing i with
  | zero => simp [strncmpLoop]
  | succ num ih =>
    have hdiff : (s₁ i).toInt - (s₂ i).toInt = 0 ↔ s₁ i = s₂ i := by
      rw [sub_eq_zero, BitVec.toInt_inj]
    rw [Nat.forall_lt_succ_left]
    by_cases heq : s₁ i = s₂ i
    · rw [strncmpLoop, if_neg (not_not.2 (hdiff.2 heq)), ih]
      simp only [Nat.add_zero, heq, true_and, Nat.add_assoc, Nat.add_comm 1]
    · rw [strncmpLoop, if_pos fun h => heq (hdiff.1 h)]
      simp only [Nat.add_zero, heq, false_and, iff_false]
      exact fun h => heq (hdiff.1 h)

/-- What `strcmp` compares with a signature. -/
theorem strcmp_eq_zero_iff (hmp : HasLen mp n) (hle : n ≤ Text.INT_MAX) (hs : HasLen s₂ 4) :
    strcmp mp s₂ = some 0 ↔
      if n = 0 ∨ n = Text.INT_MAX then mp 0 = s₂ 0 else ∀ i < n, i < 4 → mp i = s₂ i := by
  have hlit : strlen s₂ = some 4 := strlen_of_hasLen hs (by decide)
  rw [strcmp, strlen_of_hasLen hmp hle, hlit]
  simp only [Option.bind_eq_bind, Option.bind_some, Option.pure_def, Option.some_inj]
  by_cases hfirst : n = 0 ∨ n = Text.INT_MAX
  · have hlen : Nat.min (if n ≠ Text.INT_MAX then n else 0) 4 = 0 := by
      obtain rfl | rfl := hfirst <;> rfl
    rw [if_pos hfirst, if_pos hlen, sub_eq_zero, BitVec.toInt_inj]
  · rw [not_or] at hfirst
    have hlen : Nat.min (if n ≠ Text.INT_MAX then n else 0) 4 = Nat.min n 4 := by
      rw [if_pos hfirst.2]
    have hlt (i : ℕ) : i < Nat.min n 4 ↔ i < n ∧ i < 4 := Nat.lt_min
    have hpos : 0 < Nat.min n 4 := (hlt 0).2 ⟨Nat.pos_of_ne_zero hfirst.1, by decide⟩
    rw [if_neg (not_or.2 hfirst), hlen, if_neg hpos.ne', strncmp, strncmpLoop_eq_zero]
    simp only [Nat.zero_add, hlt, and_imp]

/-! ## Validation -/

theorem hasLen_literal (h : sig ∈ [MP_FPS_SIG, MP_CONF_TAB_SIG]) : HasLen (literal sig) 4 := by
  simp only [List.mem_cons, List.not_mem_nil, or_false] at h
  obtain rfl | rfl := h <;> exact ⟨rfl, by decide⟩

theorem mpChecksum_eq_zero_iff : mpChecksum mp (mpLen sig mp) = 0 ↔ SumsToZero sig mp := by
  rw [mpChecksum, u8, SumsToZero, ← List.toFinset_range, List.sum_toFinset _ List.nodup_range]

theorem mpValidate_of_endless (h : Endless mp) : mpValidate sig mp = none := by
  rw [mpValidate, strcmp, strlen_of_endless h]
  rfl

theorem mpValidate_eq_zero_iff_strcmp :
    mpValidate sig mp = some 0 ↔ strcmp mp (literal sig) = some 0 ∧ SumsToZero sig mp := by
  rw [← mpChecksum_eq_zero_iff, mpValidate]
  cases strcmp mp (literal sig) with
  | none => simp
  | some diff =>
    simp only [Option.bind_eq_bind, Option.bind_some, Option.pure_def, Option.some_inj]
    by_cases hdiff : diff = 0
    · by_cases hsum : mpChecksum mp (mpLen sig mp) = 0 <;> simp [hdiff, hsum]
    · simp [hdiff]

/-- The comparison succeeds on the whole signature and on one that is cut off. -/
theorem strcmp_literal_iff (hsig : sig ∈ [MP_FPS_SIG, MP_CONF_TAB_SIG]) (hend : ¬Endless mp) :
    strcmp mp (literal sig) = some 0 ↔ CutOff sig mp ∨ ∀ i < 4, mp i = literal sig i := by
  obtain ⟨n, hle, hmp⟩ := exists_hasLen hend
  have hlit := hasLen_literal hsig
  rw [strcmp_eq_zero_iff hmp hle hlit]
  constructor
  · intro h
    by_cases hall : ∀ i < 4, mp i = literal sig i
    · exact .inr hall
    · refine .inl ⟨n, hmp, ?_⟩
      by_cases hmax : n = Text.INT_MAX
      · rw [if_pos (.inr hmax)] at h
        simp only [not_forall] at hall
        obtain ⟨i, hi, hne⟩ := hall
        exact .inr ⟨hmax, h, i, hi, hne⟩
      · by_cases hzero : n = 0
        · subst hzero
          rw [if_pos (.inl rfl), hmp.1] at h
          exact absurd h.symm (hlit.2 0 (by decide))
        · rw [if_neg (not_or.2 ⟨hzero, hmax⟩)] at h
          have hlt : n < 4 := by
            by_contra hge
            exact hall fun i hi => h i (by omega) hi
          exact .inl ⟨Nat.pos_of_ne_zero hzero, hlt, fun i hi => h i hi (by omega)⟩
  · rintro (⟨k, hk, hcut⟩ | hall)
    · obtain rfl := hmp.unique hk
      obtain ⟨hpos, hlt, heq⟩ | ⟨hmax, heq, -⟩ := hcut
      · have hmax : n ≠ Text.INT_MAX := (hlt.trans (by decide)).ne
        rw [if_neg (not_or.2 ⟨hpos.ne', hmax⟩)]
        exact fun i hi _ => heq i hi
      · rw [if_pos (.inr hmax)]
        exact heq
    · split_ifs
      · exact hall 0 (by decide)
      · exact fun i _ hi => hall i hi

theorem CutOff.not_endless (h : CutOff sig mp) : ¬Endless mp := by
  obtain ⟨n, hn, ⟨-, hlt, -⟩ | ⟨hmax, -, -⟩⟩ := h
  · exact hn.not_endless (hlt.le.trans (by decide))
  · exact hn.not_endless hmax.le

theorem Imposter.not_endless (h : Imposter sig mp) : ¬Endless mp := by
  obtain hcut | hshort := h.2
  · exact hcut.not_endless
  · exact hshort.1

/-- An imposter is no structure. -/
theorem Imposter.not_isMp (hsig : sig ∈ [MP_FPS_SIG, MP_CONF_TAB_SIG]) (h : Imposter sig mp) :
    ¬IsMp sig mp := by
  intro hmp
  obtain ⟨n, hn, ⟨-, hlt, -⟩ | ⟨-, -, i, hi, hne⟩⟩ | ⟨-, -, hshort⟩ := h.2
  · have hzero : literal sig n = 0 := (hmp.sig_eq n hlt).symm.trans hn.1
    exact (hasLen_literal hsig).2 n hlt hzero
  · exact hne (hmp.sig_eq i hi)
  · exact absurd hmp.covers (Nat.not_le.2 hshort)

/-- What passes for a structure: the imposters, and the structures that `strlen` can count. -/
theorem mpValidate_eq_zero_iff (hsig : sig ∈ [MP_FPS_SIG, MP_CONF_TAB_SIG]) :
    mpValidate sig mp = some 0 ↔ Imposter sig mp ∨ (IsMp sig mp ∧ ¬Endless mp) := by
  by_cases hend : Endless mp
  · rw [mpValidate_of_endless hend]
    exact iff_of_false nofun fun h => h.elim (fun himp => himp.not_endless hend) fun h => h.2 hend
  · rw [mpValidate_eq_zero_iff_strcmp, strcmp_literal_iff hsig hend]
    constructor
    · rintro ⟨hcut | hall, hsum⟩
      · exact .inl ⟨hsum, .inl hcut⟩
      · by_cases hlen : mpLen sig mp < sizeofMp sig
        · exact .inl ⟨hsum, .inr ⟨hend, hall, hlen⟩⟩
        · exact .inr ⟨⟨hall, Nat.not_lt.1 hlen, hsum⟩, hend⟩
    · rintro (⟨hsum, hcut | hshort⟩ | ⟨hmp, -⟩)
      · exact ⟨.inl hcut, hsum⟩
      · exact ⟨.inr hshort.2.1, hsum⟩
      · exact ⟨.inr hmp.sig_eq, hmp.sum⟩

theorem mpValidate_of_not_endless (hsig : sig ∈ [MP_FPS_SIG, MP_CONF_TAB_SIG])
    (hend : ¬Endless mp) :
    ∃ r, mpValidate sig mp = some r := by
  obtain ⟨n, hle, hmp⟩ := exists_hasLen hend
  rw [mpValidate, strcmp, strlen_of_hasLen hmp hle,
    strlen_of_hasLen (hasLen_literal hsig) (by decide)]
  exact ⟨_, rfl⟩

/-! ## The scan -/

/-- The scan goes on behind `p`. -/
def Passed (m : Mem) (p : ℕ) : Prop := ∃ r ≠ 0, mpValidate MP_FPS_SIG (bytesAt m p) = some r

theorem mpParseLoop_of_passed (hlt : p < stop) (h : Passed m p) :
    mpParseLoop m stop (fuel + 1) p = mpParseLoop m stop fuel (p + sizeofMpFps) := by
  obtain ⟨r, hne, hr⟩ := h
  rw [mpParseLoop, if_pos hlt, hr]
  exact if_neg hne

theorem mpParseLoop_of_not_passed (hlt : p < stop) (h : ¬Passed m p) :
    mpParseLoop m stop (fuel + 1) p = some (some q) ↔
      q = p ∧ mpValidate MP_FPS_SIG (bytesAt m p) = some 0 := by
  rw [mpParseLoop, if_pos hlt]
  cases hr : mpValidate MP_FPS_SIG (bytesAt m p) with
  | none => exact iff_of_false nofun nofun
  | some r =>
    have hzero : r = 0 := not_not.1 fun hne => h ⟨r, hne, hr⟩
    subst hzero
    simp [eq_comm]

/-- The scan reports the first place that is not passed, if that is not an endless string. -/
theorem mpParseLoop_eq_some_iff (hfuel : stop ≤ p + fuel) :
    mpParseLoop m stop fuel p = some (some q) ↔
      ∃ k, q = p + sizeofMpFps * k ∧ q < stop ∧
        mpValidate MP_FPS_SIG (bytesAt m q) = some 0 ∧ ∀ j < k, Passed m (p + sizeofMpFps * j) := by
  induction fuel generalizing p with
  | zero =>
    refine iff_of_false nofun ?_
    rintro ⟨k, rfl, hlt, -⟩
    omega
  | succ fuel ih =>
    by_cases hlt : p < stop
    · by_cases hpass : Passed m p
      · have hrest : stop ≤ p + sizeofMpFps + fuel := by
          unfold sizeofMpFps
          omega
        have hstep (j : ℕ) : p + sizeofMpFps + sizeofMpFps * j = p + sizeofMpFps * (j + 1) := by
          rw [Nat.mul_succ, Nat.add_assoc, Nat.add_comm sizeofMpFps]
        rw [mpParseLoop_of_passed hlt hpass, ih hrest]
        constructor
        · rintro ⟨k, rfl, hlt', hq, hall⟩
          refine ⟨k + 1, hstep k, hlt', hq, Nat.forall_lt_succ_left.2 ⟨hpass, ?_⟩⟩
          intro j hj
          rw [← hstep]
          exact hall j hj
        · rintro ⟨k, rfl, hlt', hq, hall⟩
          cases k with
          | zero =>
            obtain ⟨r, hne, hr⟩ := hpass
            exact absurd (Option.some.inj (hr.symm.trans hq)) hne
          | succ k =>
            refine ⟨k, (hstep k).symm, hlt', hq, fun j hj => ?_⟩
            rw [hstep]
            exact hall (j + 1) (Nat.succ_lt_succ hj)
      · -- the scan ends at `p`
        rw [mpParseLoop_of_not_passed hlt hpass]
        constructor
        · rintro ⟨rfl, hq⟩
          exact ⟨0, rfl, hlt, hq, nofun⟩
        · rintro ⟨k, rfl, -, hq, hall⟩
          cases k with
          | zero => exact ⟨rfl, hq⟩
          | succ k => exact absurd (hall 0 (Nat.succ_pos k)) hpass
    · rw [mpParseLoop, if_neg hlt]
      refine iff_of_false nofun ?_
      rintro ⟨k, rfl, hlt', -⟩
      omega

theorem fps_mem : MP_FPS_SIG ∈ [MP_FPS_SIG, MP_CONF_TAB_SIG] := List.mem_cons_self

theorem passed_iff : Passed m p ↔ ¬Imposter MP_FPS_SIG (bytesAt m p) ∧
    ¬IsMp MP_FPS_SIG (bytesAt m p) ∧ ¬Endless (bytesAt m p) := by
  by_cases hend : Endless (bytesAt m p)
  · refine iff_of_false ?_ fun h => h.2.2 hend
    rintro ⟨r, -, hr⟩
    rw [mpValidate_of_endless hend] at hr
    exact absurd hr nofun
  · obtain ⟨r, hr⟩ := mpValidate_of_not_endless fps_mem hend
    have hpass : Passed m p ↔ ¬mpValidate MP_FPS_SIG (bytesAt m p) = some 0 := by
      rw [Passed, hr]
      simp
    rw [hpass, mpValidate_eq_zero_iff fps_mem]
    tauto

/-- The place that `mp_parse` comes to after `k` steps. -/
def place (base k : ℕ) : ℕ := vmmPhyToVirt base + sizeofMpFps * k

/-- The first imposter among the bytes comes behind a structure or an endless string. -/
def ImposterLate (m : Mem) (base size : ℕ) : Prop :=
  ∀ k, sizeofMpFps * k < size → Imposter MP_FPS_SIG (bytesAt m (place base k)) →
    (∀ j < k, ¬Imposter MP_FPS_SIG (bytesAt m (place base j))) →
      ∃ j < k, IsMp MP_FPS_SIG (bytesAt m (place base j)) ∨ Endless (bytesAt m (place base j))

theorem mpParse_isMp_iff (m : Mem) (base size : ℕ) :
    (∀ p, mpParse m base size = some (some p) → IsMp MP_FPS_SIG (bytesAt m p)) ↔
      ImposterLate m base size := by
  have hparse (p : ℕ) := mpParseLoop_eq_some_iff (m := m) (q := p) (le_refl (vmmPhyToVirt base + size))
  constructor
  · intro h k hk himp hfirst
    by_contra hnone
    have hpassed (j : ℕ) (hj : j < k) : Passed m (place base j) :=
      passed_iff.2 ⟨hfirst j hj, fun hmp => hnone ⟨j, hj, .inl hmp⟩, fun hend => hnone ⟨j, hj, .inr hend⟩⟩
    have hfound : mpParse m base size = some (some (place base k)) :=
      (hparse _).2 ⟨k, rfl, Nat.add_lt_add_left hk _, (mpValidate_eq_zero_iff fps_mem).2 (.inl himp),
        hpassed⟩
    exact himp.not_isMp fps_mem (h _ hfound)
  · intro h p hp
    obtain ⟨k, rfl, hlt, hvalid, hpassed⟩ := (hparse p).1 hp
    obtain himp | ⟨hmp, -⟩ := (mpValidate_eq_zero_iff fps_mem).1 hvalid
    · have hnot (j : ℕ) (hj : j < k) := passed_iff.1 (hpassed j hj)
      obtain ⟨j, hj, hmp | hend⟩ := h k (Nat.lt_of_add_lt_add_left hlt) himp fun j hj => (hnot j hj).1
      · exact absurd hmp (hnot j hj).2.1
      · exact absurd hend (hnot j hj).2.2
    · exact hmp

theorem mpValidate_isMp_iff (hsig : sig ∈ [MP_FPS_SIG, MP_CONF_TAB_SIG]) (mp : ℕ → BitVec 8) :
    (mpValidate sig mp = some 0 → IsMp sig mp) ↔ ¬Imposter sig mp := by
  rw [mpValidate_eq_zero_iff hsig]
  constructor
  · exact fun h himp => himp.not_isMp hsig (h (.inl himp))
  · exact fun h hor => hor.elim (fun himp => absurd himp h) And.left

/-- What `mp_validate` accepts is the structure unless it is an imposter, and what `mp_parse` reports
is a floating pointer structure unless the first imposter comes before all structures. -/
theorem mp_detect_iff (mp : ℕ → BitVec 8) (m : Mem) (base size : ℕ) :
    ((mpValidate MP_FPS_SIG mp = some 0 → IsMp MP_FPS_SIG mp) ↔ ¬Imposter MP_FPS_SIG mp) ∧
    ((mpValidate MP_CONF_TAB_SIG mp = some 0 → IsMp MP_CONF_TAB_SIG mp) ↔
      ¬Imposter MP_CONF_TAB_SIG mp) ∧
    ((∀ p, mpParse m base size = some (some p) → IsMp MP_FPS_SIG (bytesAt m p)) ↔
      ImposterLate m base size) :=
  ⟨mpValidate_isMp_iff (by decide) mp, mpValidate_isMp_iff (by decide) mp, mpParse_isMp_iff m base size⟩

/-- An underscore in the ROM, and zeros. -/
def underscoreRom : Mem := ⟨fun a => if a = 0xC00F0020 then 0x5F else 0⟩

/-- The underscore is taken for a floating pointer structure, and a lone "P" for a table. -/
theorem mp_detect_fails :
    ¬(∀ mp, mpValidate MP_FPS_SIG mp = some 0 → IsMp MP_FPS_SIG mp) ∧
    ¬(∀ mp, mpValidate MP_CONF_TAB_SIG mp = some 0 → IsMp MP_CONF_TAB_SIG mp) ∧
    ¬∀ m base size p, mpParse m base size = some (some p) → IsMp MP_FPS_SIG (bytesAt m p) := by
  refine ⟨fun h => ?_, fun h => ?_, fun h => ?_⟩
  · have hmp := h (literal [0x5F]) (by decide +kernel)
    exact absurd (hmp.sig_eq 1 (by decide)) (by decide)
  · have hmp := h (literal [0x50]) (by decide +kernel)
    exact absurd (hmp.sig_eq 1 (by decide)) (by decide)
  · have hmp := h underscoreRom MP_BIOS_ROM_BASE_ADDR 0x10000 0xC00F0020 (by decide +kernel)
    exact absurd (hmp.sig_eq 1 (by decide)) (by decide)

end YohdaOS.Mp
