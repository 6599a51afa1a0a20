import YohdaOS.Fat.Segments

/-!
# Decoding what was encoded

A file of a name of `len` characters becomes `(len + 12) / 13` long entries, stored last piece
first, and a short entry.  `groupByte` says what each byte of the group is.
-/

namespace YohdaOS.Fat

/-- The array holds the string `s` and a terminator. -/
structure Named (name : ℕ → Byte) (s : List Byte) : Prop where
  byte : ∀ i (h : i < s.length), name i = s[i]
  stop : name s.length = 0
  nonzero : 0 ∉ s

/-- The C string in an array. -/
def cstr (name : ℕ → Byte) : List Byte := (List.range (strlen name)).map name

variable {name : ℕ → Byte} {s : List Byte} {crc : Byte} {i j k n len : ℕ}

theorem strlenFrom_eq {fuel : ℕ} (hgo : ∀ i, n ≤ i → i < len → name i ≠ 0) (hstop : name len = 0)
    (hn : n ≤ len) (hfuel : len < n + fuel) : strlenFrom name fuel n = len := by
  induction fuel generalizing n with
  | zero => omega
  | succ fuel ih =>
    rw [strlenFrom]
    rcases eq_or_lt_of_le hn with rfl | hlt
    · rw [if_pos hstop]
    · rw [if_neg (hgo n le_rfl hlt)]
      exact ih (fun i hi => hgo i (by omega)) hlt (by omega)

theorem Named.strlen (h : Named name s) (hlen : s.length < 256) :
    YohdaOS.Fat.strlen name = s.length := by
  refine strlenFrom_eq (fun i _ hi => ?_) h.stop (Nat.zero_le _) ?_
  · rw [h.byte i hi]
    exact fun h0 => h.nonzero (h0 ▸ List.getElem_mem hi)
  · rw [FAT_LFN_MAX_LEN]
    omega

theorem Named.cstr (h : Named name s) (hlen : s.length < 256) : YohdaOS.Fat.cstr name = s := by
  rw [YohdaOS.Fat.cstr, h.strlen hlen]
  apply List.ext_getElem
  · simp
  · intro i hi hi'
    simp [h.byte i hi']

/-! ## The long entries -/

section

variable {α : Type} {f : Entry → α → Entry} {l : List α}

/-- Writes elsewhere leave a byte alone. -/
theorem foldl_of_ne (e : Entry) (hf : ∀ x ∈ l, ∀ e, f e x k = e k) : l.foldl f e k = e k := by
  induction l generalizing e with
  | nil => rfl
  | cons x l ih =>
    rw [List.foldl_cons, ih _ fun y hy => hf y (List.mem_cons_of_mem x hy),
      hf x List.mem_cons_self]

/-- The write to a byte is not undone by writes elsewhere. -/
theorem foldl_of_mem {x : α} {v : Byte} (e : Entry) (hx : x ∈ l) (hv : ∀ e, f e x k = v)
    (hf : ∀ y ∈ l, y ≠ x → ∀ e, f e y k = e k) : l.foldl f e k = v := by
  induction l generalizing e with
  | nil => cases hx
  | cons y l ih =>
    have hrest : ∀ z ∈ l, z ≠ x → ∀ e, f e z k = e k :=
      fun z hz => hf z (List.mem_cons_of_mem y hz)
    rw [List.foldl_cons]
    by_cases hmem : x ∈ l
    · exact ih _ hmem hrest
    · obtain rfl : x = y := (List.mem_cons.1 hx).resolve_right hmem
      rw [foldl_of_ne _ fun z hz => hrest z hz (by rintro rfl; exact hmem hz), hv]

end

theorem lfnOst_ne : ∀ i < 13, ∀ j < 13, i ≠ j → lfnOst i ≠ lfnOst j ∧ lfnOst i ≠ lfnOst j + 1 := by
  decide

theorem lfnOst_pos : ∀ i < 13, lfnOst i ≠ 0 := by
  decide

theorem _fatCrtLfn_ost (dst : Entry) (t : ℕ → Byte) (n : ℕ) (hj : j < 13) :
    _fatCrtLfn dst t n (lfnOst j) = t (j + 13 * n) := by
  apply foldl_of_mem (x := j) _ (List.mem_range.2 hj)
  · exact fun e => Function.update_self _ _ _
  · intro y hy hne e
    exact Function.update_of_ne (lfnOst_ne j hj y (List.mem_range.1 hy) hne.symm).1 _ _

/-- Only the bytes of the characters are written. -/
theorem _fatCrtLfn_of_ne (dst : Entry) (hk : ∀ i < 13, k ≠ lfnOst i) :
    _fatCrtLfn dst name n k = dst k := by
  apply foldl_of_ne
  intro y hy e
  exact Function.update_of_ne (hk y (List.mem_range.1 hy)) _ _

theorem fatPadLfn_eq (lfn : Entry) (len : ℕ) : fatPadLfn lfn len =
    if len % 13 = 0 then lfn
    else (List.range' (len % 13) (13 - len % 13)).foldl (fun lfn i =>
      Function.update (Function.update lfn (lfnOst i) (BitVec.ofNat 8 (lfnPad (i - len % 13))))
        (lfnOst i + 1) (BitVec.ofNat 8 (lfnPad (i - len % 13) / 256))) lfn := rfl

theorem fatPadLfn_ost (lfn : Entry) (len : ℕ) (hj : j < 13) :
    fatPadLfn lfn len (lfnOst j) =
      if len % 13 = 0 ∨ j < len % 13 then lfn (lfnOst j)
      else BitVec.ofNat 8 (lfnPad (j - len % 13)) := by
  rw [fatPadLfn_eq]
  by_cases hz : len % 13 = 0
  · rw [if_pos hz, if_pos (Or.inl hz)]
  rw [if_neg hz]
  by_cases hlt : j < len % 13
  · rw [if_pos (Or.inr hlt)]
    apply foldl_of_ne
    intro y hy e
    rw [List.mem_range'_1] at hy
    obtain ⟨h₁, h₂⟩ := lfnOst_ne j hj y (by omega) (by omega)
    rw [Function.update_of_ne h₂, Function.update_of_ne h₁]
  · rw [if_neg (not_or.2 ⟨hz, hlt⟩)]
    apply foldl_of_mem (x := j)
    · rw [List.mem_range'_1]
      omega
    · intro e
      rw [Function.update_of_ne (by omega), Function.update_self]
    · intro y hy hne e
      rw [List.mem_range'_1] at hy
      obtain ⟨h₁, h₂⟩ := lfnOst_ne j hj y (by omega) hne.symm
      rw [Function.update_of_ne h₂, Function.update_of_ne h₁]

theorem fatPadLfn_of_ne (lfn : Entry) (hk : ∀ i < 13, k ≠ lfnOst i ∧ k ≠ lfnOst i + 1) :
    fatPadLfn lfn len k = lfn k := by
  rw [fatPadLfn_eq]
  split_ifs with hz
  · rfl
  · apply foldl_of_ne
    intro y hy e
    rw [List.mem_range'_1] at hy
    obtain ⟨h₁, h₂⟩ := hk y (by omega)
    rw [Function.update_of_ne h₂, Function.update_of_ne h₁]

/-- The long entries of a name of `len` characters. -/
def lfnsOf (name : ℕ → Byte) (crc : Byte) (len : ℕ) : ℕ → Entry :=
  let last := fatPadLfn (fatLfnAt name crc (fatGetLfns len - 1)) len
  Function.update (fatLfnAt name crc) (fatGetLfns len - 1)
    (Function.update last 0 (last 0 ||| FAT_LAST_LONG_ENTRY))

theorem fatCrtLfn_ok (hlen : 1 ≤ strlen name) :
    fatCrtLfn name crc = .ok (lfnsOf name crc (strlen name)) := by
  have hne : fatGetLfns (strlen name) ≠ 0 := by
    unfold fatGetLfns F32_LFN_LEN
    omega
  rw [fatCrtLfn, if_neg hne]
  rfl

theorem fatLfnAt_ost (name : ℕ → Byte) (crc : Byte) (i : ℕ) (hj : j < 13) :
    fatLfnAt name crc i (lfnOst j) = name (13 * i + j) := by
  rw [fatLfnAt, _fatCrtLfn_ost _ _ _ hj, Nat.add_comm]

/-- The piece of a name in a long entry: its characters, then a zero, then padding. -/
theorem lfnsOf_ost (hlen : 1 ≤ len) (hi : i < fatGetLfns len) (hj : j < 13) :
    lfnsOf name crc len i (lfnOst j) =
      if 13 * i + j < len then name (13 * i + j) else if 13 * i + j = len then 0 else 0xFF := by
  unfold fatGetLfns F32_LFN_LEN at hi
  unfold lfnsOf fatGetLfns F32_LFN_LEN
  by_cases hlast : i = (len + (13 - 1)) / 13 - 1
  · rw [← hlast, Function.update_self, Function.update_of_ne (lfnOst_pos j hj),
      fatPadLfn_ost _ _ hj, fatLfnAt_ost _ _ _ hj]
    by_cases hin : 13 * i + j < len
    · rw [if_pos hin, if_pos (by omega)]
    · rw [if_neg hin, if_neg (by omega)]
      by_cases heq : 13 * i + j = len
      · rw [if_pos heq, show j - len % 13 = 0 by omega]
        rfl
      · rw [if_neg heq, lfnPad, if_neg (by omega)]
        rfl
  · rw [Function.update_of_ne hlast, fatLfnAt_ost _ _ _ hj, if_pos (by omega)]

/-- The first byte of the group: the count of the long entries with the mark. -/
theorem lfnsOf_ord (hlen : 1 ≤ len) : lfnsOf name crc len (fatGetLfns len - 1) 0 =
    FAT_LAST_LONG_ENTRY ||| BitVec.ofNat 8 (fatGetLfns len) := by
  have hpos : fatGetLfns len - 1 + 1 = fatGetLfns len := by
    unfold fatGetLfns F32_LFN_LEN
    omega
  unfold lfnsOf
  rw [Function.update_self, Function.update_self, fatPadLfn_of_ne _ (by decide), fatLfnAt,
    _fatCrtLfn_of_ne _ (by decide), BitVec.or_comm]
  simp [hpos]

/-! ## The short entry -/

/-- The short entry with the cluster number. -/
def sfnOf (file : FatFile) (clus : ℤ) : Entry :=
  setField (setField (fatCrtSfn file fun _ => 0) 20 (toU32 clus / 65536)) 26 (toU32 clus % 65536)

theorem sfnOf_attr (file : FatFile) (clus : ℤ) :
    sfnOf file clus 11 = BitVec.ofNat 8 file.attr := by
  simp [sfnOf, setField, fatCrtSfn]

theorem field_toNat {v : ℕ} (hv : v < 65536) :
    (BitVec.ofNat 8 v).toNat + 256 * (BitVec.ofNat 8 (v / 256)).toNat = v := by
  simp only [BitVec.toNat_ofNat]
  omega

theorem sfnOf_clus (file : FatFile) {clus : ℤ} (h₀ : 0 ≤ clus) (h : clus < 2147483648) :
    ((sfnOf file clus 20).toNat + 256 * (sfnOf file clus 21).toNat) * 65536 +
      ((sfnOf file clus 26).toNat + 256 * (sfnOf file clus 27).toNat) = clus.toNat := by
  have hu : toU32 clus = clus.toNat := toU32_of_nonneg h₀ (by omega)
  have hlo : (sfnOf file clus 26).toNat + 256 * (sfnOf file clus 27).toNat = clus.toNat % 65536 := by
    rw [← field_toNat (Nat.mod_lt clus.toNat (by decide)), ← hu]
    simp [sfnOf, setField]
  have hhi : (sfnOf file clus 20).toNat + 256 * (sfnOf file clus 21).toNat = clus.toNat / 65536 := by
    rw [← field_toNat (v := clus.toNat / 65536) (by omega), ← hu]
    simp [sfnOf, setField]
  rw [hlo, hhi]
  omega

/-! ## The group of a file -/

theorem Buffer.ext_byte {b : Buffer} {f g : ℕ → Byte} (h : ∀ x, f x = g x) :
    ({ b with byte := f } : Buffer) = { b with byte := g } := by
  rw [funext h]

theorem Buffer.copyEntry_ok {b : Buffer} {ost : ℕ} (e : Entry) (h : ost + 32 ≤ b.size) :
    b.copyEntry ost e = .ok { b with
      byte := fun x => if ost ≤ x ∧ x < ost + 32 then e (x - ost) else b.byte x } := if_pos h

theorem fatCombLoop_ok {lfns : ℕ → Entry} {rde fuel : ℕ} {b : Buffer} (hn : i + fuel = n)
    (hb : rde + n * 32 ≤ b.size) :
    fatCombLoop lfns rde n fuel i b = .ok { b with
      byte := fun x =>
        if rde + i * 32 ≤ x ∧ x < rde + n * 32 then lfns (n - (x - rde) / 32 - 1) ((x - rde) % 32)
        else b.byte x } := by
  induction fuel generalizing i b with
  | zero =>
    rw [fatCombLoop]
    congr 1
    apply Buffer.ext_byte
    intro x
    rw [if_neg (by omega)]
  | succ fuel ih =>
    have hroom : rde + i * 32 + 32 ≤ b.size := by omega
    rw [fatCombLoop, FAT_ENTRY_SIZE, Buffer.copyEntry_ok _ hroom, ok_bind]
    refine (ih ?_ ?_).trans ?_
    · omega
    · exact hb
    congr 1
    apply Buffer.ext_byte
    intro x
    dsimp only
    by_cases hin : rde + (i + 1) * 32 ≤ x ∧ x < rde + n * 32
    · rw [if_pos hin, if_pos (by omega)]
    · rw [if_neg hin]
      by_cases hnow : rde + i * 32 ≤ x ∧ x < rde + i * 32 + 32
      · have hdiv : (x - rde) / 32 = i := by omega
        have hmod : (x - rde) % 32 = x - (rde + i * 32) := by omega
        rw [if_pos hnow, if_pos (by omega), hdiv, hmod]
      · rw [if_neg hnow, if_neg (by omega)]

/-- `fat_comb` writes the long entries, last piece first, and the short one behind them. -/
theorem fatComb_ok (lfns : ℕ → Entry) (sfn : Entry) {rde : ℕ} {b : Buffer}
    (hb : rde + (n + 1) * 32 ≤ b.size) :
    fatComb lfns sfn rde n b = .ok { b with
      byte := fun x =>
        if rde + n * 32 ≤ x ∧ x < rde + n * 32 + 32 then sfn (x - (rde + n * 32))
        else if rde ≤ x ∧ x < rde + n * 32 then lfns (n - (x - rde) / 32 - 1) ((x - rde) % 32)
        else b.byte x } := by
  rw [fatComb, fatCombLoop_ok (Nat.zero_add n) (by omega), ok_bind, FAT_ENTRY_SIZE]
  simp only [Nat.zero_mul, Nat.add_zero]
  apply Buffer.copyEntry_ok
  simp only
  omega

namespace FatFile

/-- The number of entries of a file. -/
def slots (f : FatFile) : ℕ := fatGetLfns (strlen f.name) + 1

/-- The byte at an offset of the group of a file. -/
def groupByte (f : FatFile) (clus : ℤ) (x : ℕ) : Byte :=
  if x / 32 < fatGetLfns (strlen f.name) then
    lfnsOf f.name f.crc (strlen f.name) (fatGetLfns (strlen f.name) - x / 32 - 1) (x % 32)
  else sfnOf f clus (x % 32)

/-- What an entry can hold: a name of 1 to 255 characters, an attribute of a byte, and a cluster
number that is not negative. -/
structure Storable (f : FatFile) : Prop where
  name : ∃ s, Named f.name s ∧ 1 ≤ s.length ∧ s.length ≤ 255
  attr : f.attr < 256
  clus : ∃ c, f.clus = some c ∧ 0 ≤ c ∧ c < 2147483648

/-- What the codec is for: a name of 1 to 247 characters, an attribute of a byte, and a cluster
number that is not negative. -/
structure Valid (f : FatFile) : Prop where
  name : ∃ s, Named f.name s ∧ 1 ≤ s.length ∧ s.length ≤ 247
  attr : f.attr < 256
  clus : ∃ c, f.clus = some c ∧ 0 ≤ c ∧ c < 2147483648

/-- The name, the attribute and the first cluster. -/
def key (f : FatFile) : List Byte × ℕ × Option ℤ := (cstr f.name, f.attr, f.clus)

variable {f : FatFile}

theorem Valid.storable (h : f.Valid) : f.Storable := by
  obtain ⟨s, hs, hlo, hhi⟩ := h.name
  exact ⟨⟨s, hs, hlo, by omega⟩, h.attr, h.clus⟩

theorem Storable.strlen (h : f.Storable) : 1 ≤ Fat.strlen f.name ∧ Fat.strlen f.name ≤ 255 := by
  obtain ⟨s, hs, hlo, hhi⟩ := h.name
  rw [hs.strlen (by omega)]
  exact ⟨hlo, hhi⟩

theorem Storable.valid (h : f.Storable) (hlen : Fat.strlen f.name ≤ 247) : f.Valid := by
  obtain ⟨s, hs, hlo, hhi⟩ := h.name
  rw [hs.strlen (by omega)] at hlen
  exact ⟨⟨s, hs, hlo, hlen⟩, h.attr, h.clus⟩

theorem Valid.strlen (h : f.Valid) : 1 ≤ Fat.strlen f.name ∧ Fat.strlen f.name ≤ 247 := by
  obtain ⟨s, hs, hlo, hhi⟩ := h.name
  rw [hs.strlen (by omega)]
  exact ⟨hlo, hhi⟩

theorem Valid.lfns (h : f.Valid) :
    1 ≤ fatGetLfns (Fat.strlen f.name) ∧ fatGetLfns (Fat.strlen f.name) ≤ 19 := by
  obtain ⟨hlo, hhi⟩ := h.strlen
  unfold fatGetLfns F32_LFN_LEN
  omega

end FatFile

/-- The buffer holds the group of a file at `de`. -/
def GroupAt (b : Buffer) (de : ℕ) (f : FatFile) : Prop :=
  ∃ clus, f.clus = some clus ∧ ∀ x < f.slots * 32, b.byte (de + x) = f.groupByte clus x

theorem fatConvF2e_eq {f : FatFile} (h : f.Storable) {clus : ℤ} (hclus : f.clus = some clus)
    (de : ℕ) (b : Buffer) : fatConvF2e de f b =
      (fatComb (lfnsOf f.name f.crc (strlen f.name)) (sfnOf f clus) de (fatGetLfns (strlen f.name)) b
        >>= fun b => .ok (f.slots, b)) := by
  rw [fatConvF2e, fatCrtLfn_ok h.strlen.1, ok_bind, hclus]
  rfl

/-- `fat_conv_f2e` writes the group of the file and nothing else. -/
theorem fatConvF2e_ok {f : FatFile} (h : f.Storable) {b : Buffer} {de : ℕ}
    (hb : de + f.slots * 32 ≤ b.size) :
    ∃ b', fatConvF2e de f b = .ok (f.slots, b') ∧ b'.size = b.size ∧ GroupAt b' de f ∧
      ∀ x, x < de ∨ de + f.slots * 32 ≤ x → b'.byte x = b.byte x := by
  obtain ⟨clus, hclus, -, -⟩ := h.clus
  have hrun := fatConvF2e_eq h hclus de b
  generalize hn : fatGetLfns (strlen f.name) = n at *
  have hslots : f.slots = n + 1 := congrArg (· + 1) hn
  rw [hslots] at hb hrun ⊢
  rw [fatComb_ok _ _ hb, ok_bind] at hrun
  refine ⟨_, hrun, rfl, ⟨clus, hclus, ?_⟩, ?_⟩
  · intro x hx
    rw [hslots] at hx
    rw [FatFile.groupByte, hn]
    dsimp only
    by_cases hlast : x / 32 < n
    · rw [if_neg (by omega), if_pos (by omega), if_pos hlast, Nat.add_sub_cancel_left]
    · have hmod : de + x - (de + n * 32) = x % 32 := by omega
      rw [if_pos (by omega), if_neg hlast, hmod]
  · intro x hx
    dsimp only
    rw [if_neg (by omega), if_neg (by omega)]

/-! ## Reading a group -/

section

variable {b b' : Buffer} {f : FatFile} {de m cap : ℕ} {files : List FatFile}

theorem GroupAt.congr (h : GroupAt b de f)
    (heq : ∀ x, de ≤ x → x < de + f.slots * 32 → b'.byte x = b.byte x) : GroupAt b' de f := by
  obtain ⟨clus, hclus, hbyte⟩ := h
  refine ⟨clus, hclus, fun x hx => ?_⟩
  rw [heq (de + x) (by omega) (by omega), hbyte x hx]

theorem GroupAt.first (h : GroupAt b de f) (hv : f.Valid) :
    b.byte de = FAT_LAST_LONG_ENTRY ||| BitVec.ofNat 8 (fatGetLfns (strlen f.name)) := by
  obtain ⟨clus, -, hbyte⟩ := h
  have hpos := hv.lfns.1
  have hzero := hbyte 0 (by rw [FatFile.slots]; omega)
  rw [FatFile.groupByte, if_pos (by omega)] at hzero
  rw [← lfnsOf_ord hv.strlen.1]
  exact hzero

theorem GroupAt.ost (h : GroupAt b de f) (hv : f.Valid) :
    fatGetOst (b.byte de) = fatGetLfns (strlen f.name) := by
  rw [h.first hv]
  apply fatGetOst_long
  have := hv.lfns.2
  omega

theorem GroupAt.next (h : GroupAt b de f) (hv : f.Valid) :
    fatNext b de = de + f.slots * 32 := by
  rw [fatNext, h.ost hv, FAT_ENTRY_SIZE, FatFile.slots]

theorem GroupAt.live (h : GroupAt b de f) (hv : f.Valid) :
    ¬fatFree (b.byte de) ∧ IsLong (b.byte de) := by
  rw [h.first hv]
  apply long_live
  have := hv.lfns.2
  omega

/-- The pieces are put together in the order of the name. -/
theorem GroupAt.named (h : GroupAt b de f) (hv : f.Valid) {s : List Byte} (hs : Named f.name s)
    (hlen : strlen f.name = s.length) :
    Named (lfnName b de (fatGetLfns (strlen f.name)) fun _ => 0) s := by
  obtain ⟨clus, -, hbyte⟩ := h
  have hpos := hv.strlen.1
  generalize hn : fatGetLfns (strlen f.name) = n at *
  have hle : s.length ≤ n * 13 := by
    rw [← hn, fatGetLfns, F32_LFN_LEN]
    omega
  -- a byte of the name is in the entry that holds its piece
  have hpiece : ∀ k < n * 13, b.byte (de + (n - 1 - k / 13) * 32 + lfnOst (k % 13)) =
      if k < s.length then f.name k else if k = s.length then 0 else 0xFF := by
    intro k hk
    have hmod : k % 13 < 13 := Nat.mod_lt k (by decide)
    have host := lfnOst_lt (k % 13) hmod
    have hdiv : ((n - 1 - k / 13) * 32 + lfnOst (k % 13)) / 32 = n - 1 - k / 13 := by omega
    have hrem : ((n - 1 - k / 13) * 32 + lfnOst (k % 13)) % 32 = lfnOst (k % 13) := by omega
    have hback : n - (n - 1 - k / 13) - 1 = k / 13 := by omega
    rw [Nat.add_assoc, hbyte _ (by rw [FatFile.slots, hn]; omega), FatFile.groupByte, hn, hdiv,
      hrem, if_pos (by omega), hback, lfnsOf_ost hpos (by rw [hn]; omega) hmod, Nat.div_add_mod,
      hlen]
  refine ⟨fun i hi => ?_, ?_, hs.nonzero⟩
  · rw [lfnName, if_pos (by omega), hpiece i (by omega), if_pos hi, hs.byte i hi]
  · rw [lfnName]
    by_cases hin : s.length < n * 13
    · rw [if_pos hin, hpiece _ hin, if_neg (lt_irrefl _), if_pos rfl]
    · rw [if_neg hin]

/-- The file read from a group is the file written. -/
theorem GroupAt.key (h : GroupAt b de f) (hv : f.Valid) : (fileAt b de).key = f.key := by
  obtain ⟨s, hs, hlo, hhi⟩ := hv.name
  obtain ⟨c, hc, hc₀, hc₁⟩ := hv.clus
  have hnamed := h.named hv hs (hs.strlen (by omega))
  have host := h.ost hv
  have hlong := (h.live hv).2
  obtain ⟨clus, hclus, hbyte⟩ := h
  obtain rfl : c = clus := Option.some.inj (hc.symm.trans hclus)
  generalize hn : fatGetLfns (strlen f.name) = n at *
  have hsfn : ∀ x < 32, b.byte (de + n * 32 + x) = sfnOf f c x := by
    intro x hx
    have hmod : (n * 32 + x) % 32 = x := by omega
    rw [Nat.add_assoc, hbyte _ (by rw [FatFile.slots, hn]; omega), FatFile.groupByte, hn,
      if_neg (by omega), hmod]
  have hfield : ∀ x < 31, b.u16 (de + n * 32 + x) =
      (sfnOf f c x).toNat + 256 * (sfnOf f c (x + 1)).toNat := by
    intro x hx
    rw [Buffer.u16, hsfn x (by omega), Nat.add_assoc (de + n * 32) x 1, hsfn (x + 1) (by omega)]
  have hnum : b.u16 (de + n * 32 + 20) * 65536 + b.u16 (de + n * 32 + 26) = c.toNat := by
    rw [hfield 20 (by decide), hfield 26 (by decide)]
    exact sfnOf_clus f hc₀ hc₁
  have hfile : fileAt b de = ⟨lfnName b de n fun _ => 0, f.attr, 0, some c⟩ := by
    rw [fileAt, host, if_pos hlong, hnum, hsfn 11 (by decide), sfnOf_attr, BitVec.toNat_ofNat,
      Nat.mod_eq_of_lt hv.attr, Int.toNat_of_nonneg hc₀, toInt_of_range (by omega) hc₁,
      fatParseClus, if_neg (by omega)]
  rw [hfile, FatFile.key, FatFile.key, hnamed.cstr (by omega), hs.cstr (by omega), hc]

/-! ## A directory -/

/-- The buffer holds the groups of the files one after another. -/
def Groups (b : Buffer) : ℕ → List FatFile → Prop
  | _, [] => True
  | de, f :: files => GroupAt b de f ∧ Groups b (de + f.slots * 32) files

/-- The bytes that the groups of the files take. -/
def groupBytes : List FatFile → ℕ
  | [] => 0
  | f :: files => f.slots * 32 + groupBytes files

theorem Groups.congr (h : Groups b de files)
    (heq : ∀ x, de ≤ x → x < de + groupBytes files → b'.byte x = b.byte x) :
    Groups b' de files := by
  induction files generalizing de with
  | nil => trivial
  | cons f files ih =>
    rw [groupBytes] at heq
    refine ⟨h.1.congr fun x hx hx' => heq x hx (by omega), ih h.2 fun x hx hx' => ?_⟩
    exact heq x (by omega) (by omega)

theorem fatSyncLoop_ok (b : Buffer) (de : ℕ) (hv : ∀ f ∈ files, f.Storable) (hb : de + groupBytes files ≤ b.size) :
    ∃ b', fatSyncLoop de files b = .ok (de + groupBytes files, b') ∧ b'.size = b.size ∧
      Groups b' de files ∧
      ∀ x, x < de ∨ de + groupBytes files ≤ x → b'.byte x = b.byte x := by
  induction files generalizing de b with
  | nil => exact ⟨b, rfl, rfl, trivial, fun x _ => rfl⟩
  | cons f files ih =>
    rw [groupBytes] at hb ⊢
    obtain ⟨b₁, hrun, hsize, hgroup, hkeep⟩ :=
      fatConvF2e_ok (hv f List.mem_cons_self) (b := b) (show de + f.slots * 32 ≤ b.size by omega)
    obtain ⟨b', hrest, hsize', hgroups, hkeep'⟩ := ih b₁ (de + f.slots * 32)
      (fun g hg => hv g (List.mem_cons_of_mem f hg)) (by omega)
    refine ⟨b', ?_, hsize'.trans hsize, ⟨?_, hgroups⟩, fun x hx => ?_⟩
    · rw [fatSyncLoop, hrun, ok_bind, FAT_ENTRY_SIZE, hrest, Nat.add_assoc]
    · exact hgroup.congr fun x _ hx => hkeep' x (Or.inl hx)
    · rw [hkeep' x (by omega), hkeep x (by omega)]

/-- The decoder goes from group to group. -/
theorem Groups.walk (h : Groups b de files) (hv : ∀ f ∈ files, f.Valid)
    (hend : de + groupBytes files < b.size) (hzero : b.byte (de + groupBytes files) = 0) :
    Walk b de files.length ∧
      ((liveStarts b de files.length).map (fileAt b)).map FatFile.key = files.map FatFile.key := by
  induction files generalizing de with
  | nil => exact ⟨⟨hend, hzero, by simp, by simp⟩, rfl⟩
  | cons f files ih =>
    obtain ⟨hgroup, hgroups⟩ := h
    have hf := hv f List.mem_cons_self
    rw [groupBytes, ← Nat.add_assoc] at hend hzero
    obtain ⟨hwalk, hkeys⟩ := ih hgroups (fun g hg => hv g (List.mem_cons_of_mem f hg)) hend hzero
    have hnext := hgroup.next hf
    obtain ⟨hlive, -⟩ := hgroup.live hf
    rw [← hnext] at hwalk hkeys
    constructor
    · apply hwalk.cons
      · exact fun h0 => hlive (Or.inl h0)
      · intro _ _
        rw [hgroup.ost hf]
        exact hf.lfns.2
    · rw [List.length_cons, liveStarts_succ, if_neg hlive]
      simp only [List.map_cons]
      rw [hgroup.key hf, hkeys]

end

/-- Decoding what was encoded into a zero-filled buffer with a zero entry behind the groups gives
the names, the attributes and the first clusters of the files in their order. -/
theorem codec_ok (files : List FatFile) (hv : ∀ f ∈ files, f.Valid) (size cap : ℕ)
    (hsize : groupBytes files + 32 ≤ size) (hcap : files.length ≤ cap) :
    ∃ de b' out, fatSyncLoop 0 files ⟨fun _ => 0, size⟩ = .ok (de, b') ∧
      fatParseEntry b' cap = .ok out ∧ out.map FatFile.key = files.map FatFile.key := by
  obtain ⟨b', hrun, hsame, hgroups, hkeep⟩ :=
    fatSyncLoop_ok ⟨fun _ => 0, size⟩ 0 (fun f hf => (hv f hf).storable)
      (by simp only; omega)
  obtain ⟨hwalk, hkeys⟩ := hgroups.walk hv (by rw [hsame]; simp only; omega)
    (hkeep _ (Or.inr le_rfl))
  have hlen := liveStarts_length_le b' 0 files.length
  exact ⟨_, b', _, hrun, hwalk.parseEntry (hlen.trans hcap), hkeys⟩

/-- Two files, one with a name of a whole piece. -/
theorem codec_ok_two : ∃ de b' out,
    fatSyncLoop 0 [⟨fun i => if i < 13 then 0x61 else 0, 0x20, 7, some 5⟩,
      ⟨fun i => if i < 14 then 0x62 else 0, 0x10, 9, some 65536⟩] ⟨fun _ => 0, 512⟩ = .ok (de, b') ∧
    fatParseEntry b' 2 = .ok out ∧ out.map FatFile.key =
      [⟨fun i => if i < 13 then 0x61 else 0, 0x20, 7, some 5⟩,
        ⟨fun i => if i < 14 then 0x62 else 0, 0x10, 9, some 65536⟩].map FatFile.key := by
  apply codec_ok
  · intro f hf
    simp only [List.mem_cons, List.not_mem_nil, or_false] at hf
    rcases hf with rfl | rfl
    · exact ⟨⟨List.replicate 13 0x61, ⟨by decide, by decide, by decide⟩, by decide, by decide⟩,
        by decide, 5, rfl, by decide, by decide⟩
    · exact ⟨⟨List.replicate 14 0x62, ⟨by decide, by decide, by decide⟩, by decide, by decide⟩,
        by decide, 65536, rfl, by decide, by decide⟩
  · decide +kernel
  · decide

end YohdaOS.Fat
