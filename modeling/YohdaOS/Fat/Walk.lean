import YohdaOS.Fat.Core

/-!
# Walking over a directory

`fat_parse_entry` goes from entry to entry by a stride that it takes from the entry's first byte.
`Walk b ent m` says that from `ent` it meets `m` entries and then a zero byte inside the buffer, and
that it can read each of them.
-/

namespace YohdaOS.Fat

@[simp] theorem ok_bind {ε α β : Type} (a : α) (f : α → Except ε β) :
    (Except.ok a >>= f) = f a := rfl

@[simp] theorem error_bind {ε α β : Type} (e : ε) (f : α → Except ε β) :
    (Except.error e >>= f) = .error e := rfl

theorem bind_eq_ok {ε α β : Type} {x : Except ε α} {f : α → Except ε β} {b : β}
    (h : (x >>= f) = .ok b) : ∃ a, x = .ok a ∧ f a = .ok b := by
  cases x with
  | error e => cases h
  | ok a => exact ⟨a, rfl, h⟩

variable {b : Buffer} {ent base ost i j fuel m cap : ℕ} {tmp name : ℕ → Byte}
  {files out : List FatFile}

theorem Buffer.get_ok (h : i < b.size) : b.get i = .ok (b.byte i) := if_pos h

theorem Buffer.get_eq_ok {c : Byte} (h : b.get i = .ok c) : i < b.size ∧ b.byte i = c := by
  unfold Buffer.get at h
  split_ifs at h with hi
  exact ⟨hi, Except.ok.inj h⟩

theorem setTmp_ok {c : Byte} (h : i < FAT_LFN_MAX_LEN) :
    setTmp tmp i c = .ok (Function.update tmp i c) := if_pos h

theorem lfnOst_lt : ∀ j < 13, lfnOst j < 31 := by decide

/-! ## One entry -/

/-- The pieces of a name, one after another. -/
theorem fatParsePiece_ok (hi : i * 13 + 13 ≤ 256) (hb : ent + 32 ≤ b.size) (hj : j + fuel = 13) :
    fatParsePiece b ent i fuel j tmp = .ok fun k =>
      if i * 13 + j ≤ k ∧ k < i * 13 + 13 then b.byte (ent + lfnOst (k - i * 13)) else tmp k := by
  induction fuel generalizing j tmp with
  | zero =>
    rw [fatParsePiece]
    congr 1
    funext k
    rw [if_neg (by omega)]
  | succ fuel ih =>
    have hlt := lfnOst_lt j (by omega)
    have hk : i * F32_LFN_LEN + j < FAT_LFN_MAX_LEN := by
      simp only [F32_LFN_LEN, FAT_LFN_MAX_LEN]
      omega
    rw [fatParsePiece, Buffer.get_ok (by omega), ok_bind, setTmp_ok hk, ok_bind, ih (by omega)]
    congr 1
    funext k
    simp only [F32_LFN_LEN]
    by_cases hkj : k = i * 13 + j
    · rw [if_neg (by omega), if_pos (by omega), hkj, Function.update_self, Nat.add_sub_cancel_left]
    · rw [Function.update_of_ne hkj]
      by_cases hin : i * 13 + (j + 1) ≤ k ∧ k < i * 13 + 13
      · rw [if_pos hin, if_pos (by omega)]
      · rw [if_neg hin, if_neg (by omega)]

theorem fatParsePieces_ok (hi : (i + fuel) * 13 ≤ 256) (hb : base + fuel * 32 ≤ b.size) :
    fatParsePieces b base fuel i tmp = .ok fun k =>
      if i * 13 ≤ k ∧ k < (i + fuel) * 13 then
        b.byte (base + (i + fuel - 1 - k / 13) * 32 + lfnOst (k % 13))
      else tmp k := by
  induction fuel generalizing i tmp with
  | zero =>
    rw [fatParsePieces]
    congr 1
    funext k
    rw [if_neg (by omega)]
  | succ fuel ih =>
    rw [fatParsePieces, F32_LFN_LEN, FAT_ENTRY_SIZE,
      fatParsePiece_ok (by omega) (by omega) rfl, ok_bind, ih (by omega) (by omega)]
    congr 1
    funext k
    by_cases hlo : i * 13 ≤ k ∧ k < i * 13 + 13
    · have hdiv : k / 13 = i := by omega
      have hmod : k % 13 = k - i * 13 := by omega
      rw [if_neg (by omega), if_pos (by omega), if_pos (by omega), hdiv, hmod]
      congr 3
      omega
    · by_cases hin : (i + 1) * 13 ≤ k ∧ k < (i + 1 + fuel) * 13
      · rw [if_pos hin, if_pos (by omega)]
        congr 4
        omega
      · rw [if_neg hin, if_neg (by omega), if_neg (by omega)]

/-- The name that `ost` long entries at `base` spell. -/
def lfnName (b : Buffer) (base ost : ℕ) (name : ℕ → Byte) (k : ℕ) : Byte :=
  if k < ost * 13 then b.byte (base + (ost - 1 - k / 13) * 32 + lfnOst (k % 13)) else name k

theorem fatParseLfn_ok (h : ost ≤ 19) (hb : base + ost * 32 ≤ b.size) :
    fatParseLfn b base ost name = .ok (lfnName b base ost name) := by
  rw [fatParseLfn, fatParsePieces_ok (by omega) hb, ok_bind, F32_LFN_LEN, FAT_LFN_MAX_LEN,
    if_pos (by omega)]
  congr 1
  funext k
  unfold lfnName
  dsimp only
  by_cases hk : k < ost * 13
  · rw [if_pos hk, if_pos hk, if_pos (by omega), Nat.zero_add]
  · rw [if_neg hk, if_neg hk]

theorem le_of_fatParseLfn (h : fatParseLfn b base ost name = .ok tmp) : ost ≤ 19 := by
  obtain ⟨t, -, ht⟩ := bind_eq_ok h
  by_cases hle : ost * F32_LFN_LEN ≤ FAT_LFN_MAX_LEN
  · simp only [F32_LFN_LEN, FAT_LFN_MAX_LEN] at hle
    omega
  · rw [if_neg hle] at ht
    cases ht

/-- The byte is that of an entry the code takes for the last long one. -/
abbrev IsLong (c : Byte) : Prop := c &&& FAT_LAST_LONG_ENTRY ≠ 0

def Buffer.u16 (b : Buffer) (i : ℕ) : ℕ := (b.byte i).toNat + 256 * (b.byte (i + 1)).toNat

/-- The file that the entries at `base` describe. -/
def fileAt (b : Buffer) (base : ℕ) : FatFile :=
  let ost := fatGetOst (b.byte base)
  let sfn := base + ost * 32
  let name := if IsLong (b.byte base) then lfnName b base ost (fun _ => 0) else fun _ => 0
  fatParseClus ⟨name, (b.byte (sfn + 11)).toNat, 0, none⟩
    (toInt (b.u16 (sfn + 20) * 65536 + b.u16 (sfn + 26) : ℕ))

theorem Buffer.field_ok (h : i + 1 < b.size) : b.field i = .ok (b.u16 i) := by
  rw [Buffer.field, Buffer.get_ok (by omega), ok_bind, Buffer.get_ok h, ok_bind, Buffer.u16]

theorem fatConvE2f_ok (hb : fatNext b base ≤ b.size)
    (h : IsLong (b.byte base) → fatGetOst (b.byte base) ≤ 19) :
    fatConvE2f b base (fatGetOst (b.byte base)) FatFile.zero = .ok (fileAt b base) := by
  rw [fatNext, FAT_ENTRY_SIZE] at hb
  have hbase : base < b.size := by omega
  have hname : fatParseName b base (fatGetOst (b.byte base)) FatFile.zero = .ok
      ⟨if IsLong (b.byte base) then lfnName b base (fatGetOst (b.byte base)) (fun _ => 0)
        else fun _ => 0, 0, 0, none⟩ := by
    rw [fatParseName, Buffer.get_ok hbase, ok_bind]
    by_cases hlong : IsLong (b.byte base)
    · rw [if_pos hlong, if_pos hlong,
        fatParseLfn_ok (h hlong) (by omega)]
      rfl
    · rw [if_neg hlong, if_neg hlong]
      rfl
  rw [fatConvE2f, hname, ok_bind, FAT_ENTRY_SIZE]
  dsimp only
  rw [Buffer.get_ok (by omega), ok_bind, Buffer.field_ok (by omega), ok_bind,
    Buffer.field_ok (by omega), ok_bind]
  rfl

theorem le_of_fatConvE2f {file : FatFile} (h : fatConvE2f b base ost FatFile.zero = .ok file)
    (hlong : IsLong (b.byte base)) : ost ≤ 19 := by
  obtain ⟨f, hf, -⟩ := bind_eq_ok h
  obtain ⟨c, hc, hname⟩ := bind_eq_ok hf
  obtain ⟨-, rfl⟩ := Buffer.get_eq_ok hc
  rw [if_pos hlong] at hname
  obtain ⟨n, hn, -⟩ := bind_eq_ok hname
  exact le_of_fatParseLfn hn

/-! ## All entries -/

theorem fatNext_gt (b : Buffer) (ent : ℕ) : ent + 32 ≤ fatNext b ent := by
  unfold fatNext FAT_ENTRY_SIZE
  omega

/-- From `ent` there are `m` entries and then a zero byte inside the buffer, and the long ones are
short enough for the temporary of `fat_parse_lfn`. -/
structure Walk (b : Buffer) (ent m : ℕ) : Prop where
  inside : (fatNext b)^[m] ent < b.size
  stop : b.byte ((fatNext b)^[m] ent) = 0
  go : ∀ i < m, b.byte ((fatNext b)^[i] ent) ≠ 0
  fits : ∀ i < m, ¬fatFree (b.byte ((fatNext b)^[i] ent)) → IsLong (b.byte ((fatNext b)^[i] ent)) →
    fatGetOst (b.byte ((fatNext b)^[i] ent)) ≤ 19

/-- Where the entries are that are not free, among the first `m` from `ent` on. -/
def liveStarts (b : Buffer) (ent m : ℕ) : List ℕ :=
  ((List.range m).map fun i => (fatNext b)^[i] ent).filter fun e => ¬fatFree (b.byte e)

@[simp] theorem liveStarts_zero (b : Buffer) (ent : ℕ) : liveStarts b ent 0 = [] := rfl

theorem liveStarts_succ (b : Buffer) (ent m : ℕ) :
    liveStarts b ent (m + 1) = if fatFree (b.byte ent) then liveStarts b (fatNext b ent) m
      else ent :: liveStarts b (fatNext b ent) m := by
  unfold liveStarts
  rw [List.range_succ_eq_map, List.map_cons, List.map_map, List.filter_cons]
  simp only [Function.iterate_zero, id_eq, Function.comp_def, Function.iterate_succ_apply]
  by_cases hfree : fatFree (b.byte ent) <;> simp [hfree]

theorem liveStarts_length_le (b : Buffer) (ent m : ℕ) : (liveStarts b ent m).length ≤ m := by
  unfold liveStarts
  exact (List.length_filter_le _ _).trans (by simp)

theorem le_iterate_fatNext (b : Buffer) (ent m : ℕ) : ent + 32 * m ≤ (fatNext b)^[m] ent := by
  induction m with
  | zero => simp
  | succ m ih =>
    rw [Function.iterate_succ_apply']
    have := fatNext_gt b ((fatNext b)^[m] ent)
    omega

theorem Walk.tail (h : Walk b ent (m + 1)) : Walk b (fatNext b ent) m where
  inside := h.inside
  stop := h.stop
  go := fun i hi => h.go (i + 1) (by omega)
  fits := fun i hi => h.fits (i + 1) (by omega)

theorem Walk.cons (h : Walk b (fatNext b ent) m) (hne : b.byte ent ≠ 0)
    (hfits : ¬fatFree (b.byte ent) → IsLong (b.byte ent) → fatGetOst (b.byte ent) ≤ 19) :
    Walk b ent (m + 1) where
  inside := h.inside
  stop := h.stop
  go := fun i hi => by
    cases i with
    | zero => exact hne
    | succ i => exact h.go i (by omega)
  fits := fun i hi => by
    cases i with
    | zero => exact hfits
    | succ i => exact h.fits i (by omega)

theorem Walk.le (h : Walk b ent m) : ent + 32 * m < b.size :=
  lt_of_le_of_lt (le_iterate_fatNext b ent m) h.inside

/-- What the loop returns from the start of a walk. -/
theorem Walk.parse (h : Walk b ent m) (hcap : files.length + (liveStarts b ent m).length ≤ cap)
    (hfuel : m < fuel) :
    fatParseLoop b cap fuel ent files = .ok (files ++ (liveStarts b ent m).map (fileAt b)) := by
  induction m generalizing ent files fuel with
  | zero =>
    obtain ⟨fuel, rfl⟩ := Nat.exists_eq_succ_of_ne_zero hfuel.ne'
    have hlt : ent < b.size := h.inside
    have hstop : b.byte ent = 0 := h.stop
    rw [fatParseLoop, Buffer.get_ok hlt, ok_bind, if_pos hstop]
    simp
  | succ m ih =>
    obtain ⟨fuel, rfl⟩ := Nat.exists_eq_succ_of_ne_zero (Nat.ne_zero_of_lt hfuel)
    have hle := h.le
    have hnext := h.tail.le
    have hne : b.byte ent ≠ 0 := h.go 0 (by omega)
    rw [liveStarts_succ] at hcap ⊢
    rw [fatParseLoop, Buffer.get_ok (by omega), ok_bind, if_neg hne]
    by_cases hfree : fatFree (b.byte ent)
    · rw [if_pos hfree] at hcap ⊢
      rw [if_pos hfree]
      exact ih h.tail hcap (by omega)
    · rw [if_neg hfree] at hcap ⊢
      rw [List.length_cons] at hcap
      have hfits : IsLong (b.byte ent) → fatGetOst (b.byte ent) ≤ 19 := h.fits 0 (by omega) hfree
      rw [if_neg hfree, if_pos (by omega), fatConvE2f_ok (by omega) hfits, ok_bind,
        ih h.tail (by simp; omega) (by omega)]
      simp

/-- A loop that returns has walked. -/
theorem walk_of_parse (h : fatParseLoop b cap fuel ent files = .ok out)
    (hcap : files.length ≤ cap) :
    ∃ m, Walk b ent m ∧ files.length + (liveStarts b ent m).length ≤ cap := by
  induction fuel generalizing ent files with
  | zero => cases h
  | succ fuel ih =>
    obtain ⟨c, hc, h⟩ := bind_eq_ok h
    obtain ⟨hlt, rfl⟩ := Buffer.get_eq_ok hc
    split_ifs at h with hzero hfree hroom
    · exact ⟨0, ⟨hlt, hzero, by simp, by simp⟩, by simpa using hcap⟩
    · obtain ⟨m, hw, hm⟩ := ih h hcap
      refine ⟨m + 1, hw.cons hzero fun hn => absurd hfree hn, ?_⟩
      rwa [liveStarts_succ, if_pos hfree]
    · obtain ⟨file, hfile, h⟩ := bind_eq_ok h
      obtain ⟨m, hw, hm⟩ := ih h (by simp; omega)
      refine ⟨m + 1, hw.cons hzero fun _ => le_of_fatConvE2f hfile, ?_⟩
      rw [liveStarts_succ, if_neg hfree]
      rw [List.length_append, List.length_singleton] at hm
      rw [List.length_cons]
      omega

theorem Walk.parseEntry (h : Walk b 0 m) (hcap : (liveStarts b 0 m).length ≤ cap) :
    fatParseEntry b cap = .ok ((liveStarts b 0 m).map (fileAt b)) := by
  have hle := h.le
  exact h.parse (by simpa using hcap) (by omega)

/-- Where a walk ends does not depend on how it is described. -/
theorem Walk.unique {m' : ℕ} (h : Walk b ent m) (h' : Walk b ent m') : m = m' := by
  rcases lt_trichotomy m m' with hlt | rfl | hlt
  · exact absurd h.stop (h'.go m hlt)
  · rfl
  · exact absurd h'.stop (h.go m' hlt)

/-- `fat_get_entries` counts the files that `fat_parse_entry` finds. -/
theorem Walk.getEntries (h : Walk b ent m) {n : ℕ} (hfuel : m < fuel) :
    fatGetEntriesLoop b fuel ent n = .ok (n + (liveStarts b ent m).length) := by
  induction m generalizing ent fuel n with
  | zero =>
    obtain ⟨fuel, rfl⟩ := Nat.exists_eq_succ_of_ne_zero hfuel.ne'
    have hlt : ent < b.size := h.inside
    have hstop : b.byte ent = 0 := h.stop
    rw [fatGetEntriesLoop, Buffer.get_ok hlt, ok_bind, if_pos hstop]
    simp
  | succ m ih =>
    obtain ⟨fuel, rfl⟩ := Nat.exists_eq_succ_of_ne_zero (Nat.ne_zero_of_lt hfuel)
    have hle := h.le
    have hne : b.byte ent ≠ 0 := h.go 0 (by omega)
    rw [fatGetEntriesLoop, Buffer.get_ok (by omega), ok_bind, if_neg hne, liveStarts_succ,
      ih h.tail (by omega)]
    by_cases hfree : fatFree (b.byte ent)
    · simp [hfree]
    · simp [hfree, Nat.add_assoc, Nat.add_comm]

/-! ## Directories nobody checked -/

/-- For both callers: no access leaves its object exactly when the entries that the strides lead to
end with a zero byte inside the buffer, those with the long mark have at most 19 long entries, and
there is a file slot for each. -/
theorem parse_safe_iff (b : Buffer) :
    ((∃ files, fatParseEntry b (b.size / FAT_ENTRY_SIZE) = .ok files) ↔ ∃ m, Walk b 0 m) ∧
    ((∃ files, fatParseEntry b FAT_LFN_MAX_LEN = .ok files) ↔
      ∃ m, Walk b 0 m ∧ (liveStarts b 0 m).length ≤ FAT_LFN_MAX_LEN) := by
  constructor
  · constructor
    · rintro ⟨files, h⟩
      obtain ⟨m, hw, -⟩ := walk_of_parse h (Nat.zero_le _)
      exact ⟨m, hw⟩
    · rintro ⟨m, hw⟩
      have hlen := liveStarts_length_le b 0 m
      have hle := hw.le
      exact ⟨_, hw.parseEntry (by rw [FAT_ENTRY_SIZE]; omega)⟩
  · constructor
    · rintro ⟨files, h⟩
      obtain ⟨m, hw, hm⟩ := walk_of_parse h (Nat.zero_le _)
      exact ⟨m, hw, by simpa using hm⟩
    · rintro ⟨m, hw, hm⟩
      exact ⟨_, hw.parseEntry hm⟩

/-- A name of 255 characters has twenty long entries: the temporary is written behind its end. -/
theorem parse_safe_fails :
    ¬∀ b : Buffer, ∃ files, fatParseEntry b (b.size / FAT_ENTRY_SIZE) = .ok files := by
  intro hall
  obtain ⟨files, h⟩ := hall ⟨fun i => if i = 0 then 0x54 else if i < 1024 then 0x61 else 0, 4096⟩
  have hbad : (fatParseEntry ⟨fun i => if i = 0 then 0x54 else if i < 1024 then 0x61 else 0, 4096⟩
      (4096 / FAT_ENTRY_SIZE)).isOk = false := by decide +kernel
  rw [h] at hbad
  cases hbad

end YohdaOS.Fat
