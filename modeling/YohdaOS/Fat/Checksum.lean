import Mathlib.Data.List.TakeDrop
import YohdaOS.Fat.Codec
import YohdaOS.Fat.Create

/-!
# The checksum of the long entries

The long entries of a file carry the checksum that `fat_crt` has taken of the first bytes of the
name.  What they belong to is the short entry, whose name is cut at the dot and padded with blanks.
-/

namespace YohdaOS.Fat

/-- `fat_crt` has made the file for a path that ends in `s`, and a cluster for it. -/
def Created (s : List Byte) (f : FatFile) : Prop :=
  ∃ (path : CString) (attr : Byte) (mem : FatMem) (ost : ℤ) (mem' : FatMem), path.baseName = s ∧
    fatCrt (some path) { FatFile.zero with attr := attr.toNat } mem = .ok (ost, f, mem') ∧
    0 ≤ ost ∧ ost < 2147483648

/-- In the group emitted at `de`, every long entry has the checksum of the name in the short one. -/
def Tied (f : FatFile) (de : ℕ) (b : Buffer) : Prop :=
  ∃ n b', fatConvF2e de f b = .ok (n + 1, b') ∧
    ∀ i < n, b'.byte (de + (32 * i + 13)) = fatCalcCrc fun j => b'.byte (de + (32 * n + j))

/-- The checksum of a list of bytes. -/
def checksum (l : List Byte) : Byte := l.foldl crcByte 0

/-- The name in the short entry: 8 characters before the first dot and 3 behind it, or the first 11,
padded with blanks. -/
def shortName (s : List Byte) : List Byte :=
  if 0x2E ∈ s then
    (s.takeWhile (· ≠ 0x2E)).takeD 8 0x20 ++ (s.dropWhile (· ≠ 0x2E)).tail.takeD 3 0x20
  else s.takeD 11 0x20

variable {s : List Byte} {f : FatFile} {name src : ℕ → Byte} {i n de : ℕ} {b : Buffer}

/-! ## Strings as lists -/

theorem named_getD (h : 0 ∉ s) : Named (fun i => s.getD i 0) s where
  byte i hi := by simp [List.getD, List.getElem?_eq_getElem hi]
  stop := by simp [List.getD]
  nonzero := h

theorem Named.getD (h : Named name s) (hi : i < s.length) (x : Byte) : name i = s.getD i x := by
  rw [h.byte i hi, List.getD, List.getElem?_eq_getElem hi, Option.getD_some]

theorem getD_takeD {l : List Byte} {x : Byte} (hi : i < n) (y : Byte) :
    (l.takeD n x).getD i y = l.getD i x := by
  induction n generalizing l i with
  | zero => omega
  | succ n ih =>
    cases i with
    | zero => cases l <;> rfl
    | succ i =>
      rw [List.takeD_succ, List.getD_cons_succ, ih (by omega)]
      cases l <;> rfl

theorem takeD_of_le {l : List Byte} (x : Byte) (h : l.length ≤ n) :
    l.takeD n x = l ++ List.replicate (n - l.length) x := by
  induction n generalizing l with
  | zero =>
    obtain rfl := List.length_eq_zero_iff.1 (Nat.le_zero.1 h)
    rfl
  | succ n ih =>
    cases l with
    | nil => simp [List.replicate_succ]
    | cons c l =>
      rw [List.length_cons] at h
      rw [List.takeD_succ, List.tail_cons, ih (by omega), List.length_cons,
        Nat.succ_sub_succ]
      rfl

/-- `strncpy` of a string. -/
theorem strncpy_apply (hs : Named src s) (hlen : s.length < 256) (dst : ℕ → Byte) (ost : ℕ)
    (cnt : ℤ) (i : ℕ) : strncpy dst ost src cnt i =
      if ost ≤ i ∧ i < ost + s.length ∧ (i : ℤ) < ost + cnt then s.getD (i - ost) 0
      else dst i := by
  rw [strncpy, hs.strlen hlen]
  by_cases hcnt : cnt < 1
  · rw [if_pos hcnt, if_neg (by omega)]
  · rw [if_neg hcnt]
    have hmin : ost ≤ i ∧ i < ost + (YohdaOS.min s.length cnt).toNat ↔
        ost ≤ i ∧ i < ost + s.length ∧ (i : ℤ) < ost + cnt := by
      unfold YohdaOS.min
      split_ifs <;> omega
    simp only [hmin]
    split_ifs with hin
    · exact hs.getD (by omega) 0
    · rfl

theorem fatCalcCrc_eq (f : ℕ → Byte) : fatCalcCrc f = checksum ((List.range 11).map f) := by
  rw [checksum, List.foldl_map]
  rfl

theorem takeD_eq_map (l : List Byte) (n : ℕ) (x : Byte) :
    (List.range n).map (fun i => l.getD i x) = l.takeD n x := by
  apply List.ext_getElem
  · rw [List.length_map, List.length_range, List.takeD_length]
  · intro i hi hi'
    rw [List.takeD_length] at hi'
    have hget := getD_takeD (l := l) (x := x) hi' x
    rw [List.getD, List.getElem?_eq_getElem (by rwa [List.takeD_length]), Option.getD_some] at hget
    rw [List.getElem_map, List.getElem_range, hget]

theorem fatCalcCrc_getD (s : List Byte) :
    fatCalcCrc (fun i => s.getD i 0) = checksum (s.takeD 11 0) := by
  rw [fatCalcCrc_eq, takeD_eq_map]

/-! ## The file created -/

theorem CString.baseName_nonzero (path : CString) : 0 ∉ path.baseName := by
  unfold baseName
  split
  · exact fun h => path.nonzero (List.mem_of_mem_drop h)
  · exact path.nonzero

/-- The name and the checksum of the name in the file, which can be stored. -/
theorem Created.spec (h : Created s f) (hpos : 1 ≤ s.length) (hlen : s.length ≤ 255) :
    f.name = (fun i => s.getD i 0) ∧ f.crc = checksum (s.takeD 11 0) ∧ Named f.name s ∧
      f.Storable := by
  obtain ⟨path, attr, mem, ost, mem', rfl, hcrt, hlo, hhi⟩ := h
  have hnamed := named_getD path.baseName_nonzero
  have hzero : strncpy FatFile.zero.name 0 (fun i => path.baseName.getD i 0) path.baseName.length =
      fun i => path.baseName.getD i 0 := by
    funext i
    rw [strncpy_apply hnamed (by omega)]
    split_ifs with hin
    · rfl
    · exact (List.getD_eq_default _ _ (by omega)).symm
  obtain ⟨⟨err, name⟩, hparse, hrest⟩ := bind_eq_ok hcrt
  simp only [fatParsePath, if_pos (show path.baseName.length ≤ FAT_LFN_MAX_LEN by
    rw [FAT_LFN_MAX_LEN]; omega), hzero] at hparse
  obtain ⟨-, rfl⟩ := Prod.mk.inj (Except.ok.inj hparse)
  obtain ⟨rfl, hfile⟩ := Prod.mk.inj (Except.ok.inj hrest)
  obtain ⟨rfl, -⟩ := Prod.mk.inj hfile
  simp only [fatAllocClus_file hlo, fatCalcCrc_getD, true_and]
  exact ⟨hnamed, ⟨_, hnamed, hpos, hlen⟩, attr.isLt, _, rfl, hlo, hhi⟩

/-! ## The group -/

/-- Every long entry has the checksum of the file. -/
theorem lfnsOf_crc (name : ℕ → Byte) (crc : Byte) (len i : ℕ) : lfnsOf name crc len i 13 = crc := by
  have hat (i : ℕ) : fatLfnAt name crc i 13 = crc := by
    rw [fatLfnAt, _fatCrtLfn_of_ne _ (by decide), Function.update_self]
  unfold lfnsOf
  by_cases hlast : i = fatGetLfns len - 1
  · rw [hlast, Function.update_self, Function.update_of_ne (by decide),
      fatPadLfn_of_ne _ (by decide), hat]
  · rw [Function.update_of_ne hlast, hat]

/-! ## The short name -/

theorem mem_takeD {l : List Byte} {x c : Byte} (h : c ∈ l.takeD n x) : c ∈ l ∨ c = x := by
  induction n generalizing l with
  | zero => cases h
  | succ n ih =>
    rw [List.takeD_succ, List.mem_cons] at h
    cases l with
    | nil =>
      rcases h with rfl | h
      · exact Or.inr rfl
      · exact (ih h).imp_left List.mem_of_mem_tail
    | cons d l =>
      rcases h with rfl | h
      · exact Or.inl List.mem_cons_self
      · exact (ih h).imp_left (List.mem_cons_of_mem d)

theorem shortName_append {l ext : List Byte} (hl : 0x2E ∉ l) :
    shortName (l ++ 0x2E :: ext) = l.takeD 8 0x20 ++ ext.takeD 3 0x20 := by
  have hall : ∀ c ∈ l, decide (c ≠ 0x2E) = true := by
    rintro c hc
    exact decide_eq_true fun h => hl (h ▸ hc)
  rw [shortName, if_pos (by simp), List.takeWhile_append_of_pos hall,
    List.dropWhile_append_of_pos hall, List.takeWhile_cons_of_neg (by simp),
    List.dropWhile_cons_of_neg (by simp), List.append_nil, List.tail_cons]

theorem length_shortName (s : List Byte) : (shortName s).length = 11 := by
  unfold shortName
  split_ifs
  · rw [List.length_append, List.takeD_length, List.takeD_length]
  · exact List.takeD_length _ _ _

theorem shortName_nonzero (h : 0 ∉ s) : 0 ∉ shortName s := by
  unfold shortName
  split_ifs
  · intro hmem
    rcases List.mem_append.1 hmem with hmem | hmem
    · rcases mem_takeD hmem with hmem | hmem
      · exact h ((List.takeWhile_sublist _).subset hmem)
      · exact absurd hmem (by decide)
    · rcases mem_takeD hmem with hmem | hmem
      · exact h ((List.dropWhile_sublist _).subset (List.mem_of_mem_tail hmem))
      · exact absurd hmem (by decide)
  · intro hmem
    rcases mem_takeD hmem with hmem | hmem
    · exact h hmem
    · exact absurd hmem (by decide)

/-- `pad_name` after its `memset`. -/
def blanks : ℕ → Byte := fun i => if i < F32_SFN_LEN then 0x20 else 0

/-- An array that agrees with a padded string of 11 characters. -/
theorem named_shortName (h : 0 ∉ s) (hbyte : ∀ i < 11, name i = (shortName s).getD i 0)
    (hstop : name 11 = 0) : Named name (shortName s) where
  byte i hi := by
    rw [length_shortName] at hi
    rw [hbyte i hi, List.getD, List.getElem?_eq_getElem, Option.getD_some]
  stop := by rwa [length_shortName]
  nonzero := shortName_nonzero h

theorem strchr_append {l ext : List Byte} (h : Named name (l ++ 0x2E :: ext))
    (hlen : (l ++ 0x2E :: ext).length < 256) (hl : 0x2E ∉ l) :
    strchr name 0x2E = some l.length := by
  rw [strchr, h.strlen hlen, List.find?_range_eq_some]
  refine ⟨?_, ?_, ?_⟩
  · rw [h.getD (x := 0) (by simp), decide_eq_true_eq]
    simp
  · simp
  · intro i hi
    rw [h.getD (x := 0) (by simp; omega), List.getD_append _ _ _ _ hi]
    have hmem : l.getD i 0 ∈ l := by
      rw [List.getD, List.getElem?_eq_getElem hi, Option.getD_some]
      exact List.getElem_mem hi
    simp only [Bool.not_eq_true', decide_eq_false_iff_not]
    exact fun hdot => hl (hdot ▸ hmem)

theorem strchr_of_notMem (h : Named name s) (hlen : s.length < 256) (hs : 0x2E ∉ s) :
    strchr name 0x2E = none := by
  rw [strchr, h.strlen hlen, List.find?_eq_none]
  intro i hi
  rw [List.mem_range] at hi
  rw [h.byte i hi, decide_eq_true_eq]
  exact fun hdot => hs (hdot ▸ List.getElem_mem hi)

/-- Characters copied over blanks. -/
theorem strncpy_blanks {l : List Byte} (dst : ℕ → Byte) (ost : ℕ) (cnt : ℤ) (hs : Named src s)
    (hlen : s.length < 256) (hl : l <+: s) (hdst : ∀ i < n, dst (ost + i) = 0x20)
    (hcnt : ∀ i < n, (i : ℤ) < cnt ∧ i < s.length ↔ i < l.length) (hi : i < n) :
    strncpy dst ost src cnt (ost + i) = (l.takeD n 0x20).getD i 0 := by
  rw [strncpy_apply hs hlen, getD_takeD hi, hdst i hi]
  by_cases hin : i < l.length
  · have hcopied := (hcnt i hi).2 hin
    rw [if_pos (by omega), Nat.add_sub_cancel_left]
    obtain ⟨t, rfl⟩ := hl
    rw [List.getD_append _ _ _ _ hin, List.getD_eq_getElem _ _ hin, List.getD_eq_getElem _ _ hin]
  · rw [if_neg (fun h => hin ((hcnt i hi).1 (by omega))), List.getD_eq_default _ _ (by omega)]

/-- The string behind a character of a string. -/
theorem Named.behind {l ext : List Byte} {c : Byte} (h : Named name (l ++ c :: ext)) :
    Named (fun i => name (i + l.length + 1)) ext where
  byte i hi := by
    have hsucc : i + l.length + 1 - l.length = i + 1 := by omega
    rw [h.getD (x := 0) (by rw [List.length_append, List.length_cons]; omega),
      List.getD_append_right _ _ _ _ (by omega), hsucc, List.getD_cons_succ,
      List.getD_eq_getElem _ _ hi]
  stop := by
    have hstop := h.stop
    rwa [List.length_append, List.length_cons, ← Nat.add_assoc, Nat.add_comm l.length] at hstop
  nonzero := fun h0 => h.nonzero (List.mem_append_right l (List.mem_cons_of_mem c h0))

theorem blanks_of_lt (hi : i < 11) : blanks i = 0x20 := if_pos hi

/-- `pad_name` for a name with a dot. -/
theorem padName_dot {l ext : List Byte} (h : Named name (l ++ 0x2E :: ext))
    (hlen : (l ++ 0x2E :: ext).length < 256) (hl : 0x2E ∉ l) :
    Named (strncpy (strncpy blanks 0 name (YohdaOS.min l.length 8)) 8
      (fun i => name (i + l.length + 1)) (YohdaOS.min ext.length 3))
      (shortName (l ++ 0x2E :: ext)) := by
  have hext := h.behind
  have hlen' : l.length + (ext.length + 1) < 256 := by
    rwa [List.length_append, List.length_cons] at hlen
  apply named_shortName h.nonzero
  · intro i hi
    rw [shortName_append hl]
    by_cases hlo : i < 8
    · have hcopy := strncpy_blanks blanks 0 (YohdaOS.min l.length 8) h hlen
        (List.prefix_append l _) (fun i hi => blanks_of_lt (by omega)) (fun i hi => ?_) hlo
      · rw [Nat.zero_add] at hcopy
        rw [List.getD_append _ _ _ _ (by rwa [List.takeD_length]), ← hcopy,
          strncpy_apply hext (by omega), if_neg (by omega)]
      · rw [List.length_append, YohdaOS.min]
        split_ifs <;> omega
    · obtain ⟨k, rfl⟩ : ∃ k, i = 8 + k := ⟨i - 8, by omega⟩
      rw [List.getD_append_right _ _ _ _ (by rw [List.takeD_length]; omega), List.takeD_length,
        Nat.add_sub_cancel_left]
      apply strncpy_blanks _ _ _ hext (by omega) List.prefix_rfl
      · intro i hi
        rw [strncpy_apply h hlen, if_neg (by rw [YohdaOS.min]; split_ifs <;> omega)]
        exact blanks_of_lt (by omega)
      · intro i hi
        rw [YohdaOS.min]
        split_ifs <;> omega
      · omega
  · rw [strncpy_apply hext (by omega), if_neg (by rw [YohdaOS.min]; split_ifs <;> omega),
      strncpy_apply h hlen, if_neg (by rw [YohdaOS.min]; split_ifs <;> omega)]
    rfl

/-- `pad_name` for a name without a dot. -/
theorem padName_of_notMem (h : Named name s) (hlen : s.length < 256) (hdot : 0x2E ∉ s) :
    Named (strncpy blanks 0 name (if s.length ≥ F32_SFN_LEN then F32_SFN_LEN else s.length))
      (shortName s) := by
  apply named_shortName h.nonzero
  · intro i hi
    have hcopy := strncpy_blanks blanks 0
      (if s.length ≥ F32_SFN_LEN then F32_SFN_LEN else s.length) h hlen List.prefix_rfl
      (fun i hi => blanks_of_lt (by omega)) (fun i hi => ?_) hi
    · rwa [Nat.zero_add, ← show shortName s = s.takeD 11 0x20 from if_neg hdot] at hcopy
    · rw [F32_SFN_LEN]
      split_ifs <;> omega
  · rw [strncpy_apply h hlen, if_neg (by rw [F32_SFN_LEN]; split_ifs <;> omega)]
    rfl

/-- The name that `_fat_crt_sfn` writes. -/
theorem _fatCrtSfn_apply (h : Named name s) (hlen : s.length < 256) (sfn : Entry) (j : ℕ) :
    _fatCrtSfn name sfn j = if j < 11 then (shortName s).getD j 0 else sfn j := by
  obtain ⟨padName, hrun, hnamed⟩ : ∃ padName,
      _fatCrtSfn name sfn = strncpy sfn 0 padName F32_SFN_LEN ∧ Named padName (shortName s) := by
    by_cases hdot : 0x2E ∈ s
    · obtain ⟨l, ext, rfl, hl⟩ := List.eq_append_cons_of_mem hdot
      refine ⟨_, ?_, padName_dot h hlen hl⟩
      rw [List.length_append, List.length_cons] at hlen
      rw [_fatCrtSfn, strchr_append h (by rwa [List.length_append, List.length_cons]) hl]
      simp only [h.behind.strlen (show ext.length < 256 by omega)]
      rfl
    · refine ⟨_, ?_, padName_of_notMem h hlen hdot⟩
      rw [_fatCrtSfn, strchr_of_notMem h hlen hdot]
      simp only [h.strlen hlen]
      rfl
  rw [hrun, strncpy_apply hnamed (by rw [length_shortName]; decide), length_shortName, F32_SFN_LEN,
    Nat.sub_zero]
  by_cases hj : j < 11
  · rw [if_pos hj, if_pos (by omega)]
  · rw [if_neg hj, if_neg (by omega)]

/-- The checksum of the name in the short entry. -/
theorem fatCalcCrc_sfnOf (h : Named f.name s) (hlen : s.length < 256) (clus : ℤ) :
    fatCalcCrc (sfnOf f clus) = checksum (shortName s) := by
  have hbyte : ∀ j < 11, sfnOf f clus j = (shortName s).getD j 0 := by
    intro j hj
    have hne {k : ℕ} (hk : 11 ≤ k) : j ≠ k := by omega
    rw [sfnOf, setField, setField, fatCrtSfn, Function.update_of_ne (hne (by decide)),
      Function.update_of_ne (hne (by decide)), Function.update_of_ne (hne (by decide)),
      Function.update_of_ne (hne (by decide)), Function.update_of_ne (hne (by decide)),
      _fatCrtSfn_apply h hlen, if_pos hj]
  have hlist := takeD_eq_map (shortName s) 11 0
  rw [fatCalcCrc_eq, List.map_congr_left fun j hj => hbyte j (List.mem_range.1 hj), hlist,
    List.takeD_eq_take _ (length_shortName s).ge, ← length_shortName s, List.take_length]

/-! ## The two checksums -/

/-- Zeros and blanks lead to different checksums, but for 8 or 9 of them. -/
theorem checksum_pad : ∀ k ∈ [1, 2, 3, 4, 5, 6, 7, 10], ∀ crc : Byte,
    (List.replicate k 0).foldl crcByte crc ≠ (List.replicate k 0x20).foldl crcByte crc := by
  decide +kernel

/-- For names without a dot the two checksums are the same from 11 characters on, and may be the same
by accident for 2 or 3. -/
theorem checksum_eq_iff (hpos : 1 ≤ s.length) :
    checksum (s.takeD 11 0) = checksum (shortName s) ↔ (0x2E ∉ s ∧ 11 ≤ s.length) ∨
      ((0x2E ∈ s ∨ s.length = 2 ∨ s.length = 3) ∧
        checksum (s.takeD 11 0) = checksum (shortName s)) := by
  constructor
  · intro heq
    by_cases hdot : 0x2E ∈ s
    · exact Or.inr ⟨Or.inl hdot, heq⟩
    by_cases hlong : 11 ≤ s.length
    · exact Or.inl ⟨hdot, hlong⟩
    refine Or.inr ⟨Or.inr ?_, heq⟩
    by_contra hlen
    rw [shortName, if_neg hdot, takeD_of_le _ (by omega), takeD_of_le _ (by omega), checksum,
      checksum, List.foldl_append, List.foldl_append] at heq
    refine checksum_pad (11 - s.length) ?_ _ heq
    simp only [List.mem_cons, List.not_mem_nil, or_false]
    omega
  · rintro (⟨hdot, hlong⟩ | ⟨-, heq⟩)
    · rw [shortName, if_neg hdot, List.takeD_eq_take _ hlong, List.takeD_eq_take _ hlong]
    · exact heq

/-- The long entries carry the checksum of the name as it was created, and the short entry has the
name that is made of it. -/
theorem tied_iff_checksum (hf : Created s f) (hpos : 1 ≤ s.length) (hlen : s.length ≤ 255)
    (hb : de + f.slots * 32 ≤ b.size) :
    Tied f de b ↔ checksum (s.takeD 11 0) = checksum (shortName s) := by
  obtain ⟨-, hcrc, hnamed, hs⟩ := hf.spec hpos hlen
  obtain ⟨b', hrun, -, ⟨clus, -, hbyte⟩, -⟩ := fatConvF2e_ok hs hb
  have hlfns : 1 ≤ fatGetLfns (strlen f.name) := by
    rw [hnamed.strlen (by omega), fatGetLfns, F32_LFN_LEN]
    omega
  generalize hn : fatGetLfns (strlen f.name) = n at *
  have hslots : f.slots = n + 1 := congrArg (· + 1) hn
  rw [hslots] at hbyte hrun
  have hshort : (fatCalcCrc fun j => b'.byte (de + (32 * n + j))) = checksum (shortName s) := by
    rw [← fatCalcCrc_sfnOf hnamed (by omega) clus, fatCalcCrc_eq, fatCalcCrc_eq]
    refine congrArg checksum (List.map_congr_left fun j hj => ?_)
    rw [List.mem_range] at hj
    have hmod : (32 * n + j) % 32 = j := by omega
    rw [hbyte _ (by omega), FatFile.groupByte, hn, if_neg (by omega), hmod]
  have hlong (i : ℕ) (hi : i < n) : b'.byte (de + (32 * i + 13)) = checksum (s.takeD 11 0) := by
    have hmod : (32 * i + 13) % 32 = 13 := by omega
    rw [hbyte _ (by omega), FatFile.groupByte, hn, if_pos (by omega), hmod, lfnsOf_crc, hcrc]
  rw [Tied, hrun]
  constructor
  · rintro ⟨m, b'', heq, htied⟩
    obtain ⟨hm, rfl⟩ := Prod.mk.inj (Except.ok.inj heq)
    obtain rfl : n = m := Nat.succ_inj.1 hm
    rw [← hlong 0 hlfns, htied 0 hlfns, hshort]
  · intro heq
    exact ⟨n, b', rfl, fun i hi => by rw [hlong i hi, hshort, heq]⟩

/-- In the group of a file that `fat_crt` has made, the long entries carry the checksum of the short
one exactly if the name has no dot and at least 11 characters, or it has a dot or 2 or 3 characters
and the checksum of its first 11 bytes, padded with zeros, happens to be that of the short name. -/
theorem tied_iff (s : List Byte) (f : FatFile) (hf : Created s f) (hpos : 1 ≤ s.length)
    (hlen : s.length ≤ 255) (de : ℕ) (b : Buffer) (hb : de + f.slots * 32 ≤ b.size) :
    Tied f de b ↔ (0x2E ∉ s ∧ 11 ≤ s.length) ∨
      ((0x2E ∈ s ∨ s.length = 2 ∨ s.length = 3) ∧
        checksum (s.takeD 11 0) = checksum (shortName s)) := by
  rw [tied_iff_checksum hf hpos hlen hb]
  exact checksum_eq_iff hpos

theorem baseName_of_notMem {path : CString} (h : 0x2F ∉ path.chars) :
    path.baseName = path.chars := by
  have hnone : strrchr path 0x2F = none := by
    rw [strrchr, List.find?_eq_none]
    intro i _
    rw [decide_eq_true_eq]
    intro hi
    by_cases hlt : i < path.chars.length
    · rw [List.getD_eq_getElem _ _ hlt] at hi
      exact h (hi ▸ List.getElem_mem hlt)
    · rw [List.getD_eq_default _ _ (Nat.not_lt.1 hlt)] at hi
      exact absurd hi (by decide)
  rw [CString.baseName, hnone]

/-- There is a file for every name without a slash. -/
theorem exists_created (hzero : 0 ∉ s) (hslash : 0x2F ∉ s) (hlen : s.length ≤ 256) :
    ∃ f, Created s f := by
  have hname : CString.baseName ⟨s, hzero⟩ = s := baseName_of_notMem hslash
  have hget : bitmapGetFree ClusState.twoClusters.mem ClusState.twoClusters.rgn.bit = 0 := by decide
  obtain ⟨⟨ost, f, mem'⟩, hrun, host⟩ : ∃ r, fatCrt (some ⟨s, hzero⟩)
      { FatFile.zero with attr := FAT_ATTR_ARCHIVE.toNat } ⟨some [], 0, ClusState.twoClusters⟩ =
        .ok r ∧ r.1 = 0 := by
    have hparse : fatParsePath (some ⟨s, hzero⟩) FatFile.zero.name = .ok (0,
        strncpy FatFile.zero.name 0 (fun i => s.getD i 0) s.length) := by
      simp only [fatParsePath, hname]
      exact if_pos hlen
    rw [fatCrt, hparse]
    refine ⟨_, rfl, ?_⟩
    simp only [fatAllocClus, hget]
    rfl
  obtain rfl : ost = 0 := host
  exact ⟨f, ⟨s, _⟩, FAT_ATTR_ARCHIVE, _, 0, mem', hname, hrun, le_rfl, by decide⟩

/-- A name of 11 letters. -/
theorem tied_iff_letters : ∃ f, Created (List.replicate 11 0x61) f ∧ Tied f 0 ⟨fun _ => 0, 512⟩ := by
  obtain ⟨f, hf⟩ := exists_created (s := List.replicate 11 0x61) (by decide) (by decide) (by decide)
  obtain ⟨-, -, hnamed, -⟩ := hf.spec (by decide) (by decide)
  have hslots : f.slots = 2 := by
    rw [FatFile.slots, hnamed.strlen (by decide)]
    decide
  exact ⟨f, hf, (tied_iff _ f hf (by decide) (by decide) 0 _ (by rw [hslots]; decide)).2
    (Or.inl ⟨by decide, by decide⟩)⟩

/-- The name `a`: the checksum is taken of it and ten zeros, the short name ends in ten blanks. -/
theorem tied_fails : ¬∀ s f, Created s f → 1 ≤ s.length → s.length ≤ 255 → ∀ de b,
    de + f.slots * 32 ≤ b.size → Tied f de b := by
  intro hall
  obtain ⟨f, hf⟩ := exists_created (s := [0x61]) (by decide) (by decide) (by decide)
  have htied := hall [0x61] f hf (by decide) (by decide) 0 ⟨fun _ => 0, f.slots * 32⟩
    (Nat.zero_add _).le
  rw [tied_iff_checksum hf (by decide) (by decide) (Nat.zero_add _).le] at htied
  exact absurd htied (by decide)

end YohdaOS.Fat
