import YohdaOS.Math

/-!
# Directory entries of fs/fat.c

The functions that turn files into directory entries and back.  Every array is an object of its own:
the directory buffer is a `Buffer`, the names and the single entries are functions of the offset, and
an access outside the object is a `Fault`.
-/

namespace YohdaOS.Fat

abbrev Byte := BitVec 8

def FAT_ENTRY_SIZE : ℕ := 32

def F32_SFN_LEN : ℕ := 11

def F32_LFN_LEN : ℕ := 13

def FAT_LFN_MAX_LEN : ℕ := 256

def FAT_ATTR_LFN : Byte := 0x0F

def FAT_LAST_LONG_ENTRY : Byte := 0x40

/-- `FAT_FREE` -/
def fatFree (x : Byte) : Prop := x = 0 ∨ x = 0xE5

instance (x : Byte) : Decidable (fatFree x) := inferInstanceAs (Decidable (_ ∨ _))

/-- `lfn_ost` -/
def lfnOst (i : ℕ) : ℕ := [1, 3, 5, 7, 9, 14, 16, 18, 20, 22, 24, 28, 30].getD i 0

/-- `lfn_pad` -/
def lfnPad (i : ℕ) : ℕ := if i = 0 then 0x0000 else 0xFFFF

/-- The kinds of access outside an object. -/
inductive Fault where
  /-- the directory buffer -/
  | dir
  /-- `tmp` of `fat_parse_lfn` -/
  | tmp
  /-- the field `name` of a file -/
  | name
  /-- the array of files -/
  | files
  /-- the array of long entries -/
  | lfns
  /-- a file without a cluster number -/
  | clus
deriving DecidableEq, Repr

structure Buffer where
  byte : ℕ → Byte
  size : ℕ

def Buffer.get (b : Buffer) (i : ℕ) : Except Fault Byte :=
  if i < b.size then .ok (b.byte i) else .error .dir

/-- The bytes of a `struct fat_lfn` or a `struct fat_sfn`. -/
abbrev Entry := ℕ → Byte

/-- `memcpy` of one entry into the buffer. -/
def Buffer.copyEntry (b : Buffer) (ost : ℕ) (e : Entry) : Except Fault Buffer :=
  if ost + FAT_ENTRY_SIZE ≤ b.size then
    .ok { b with byte := fun i =>
      if ost ≤ i ∧ i < ost + FAT_ENTRY_SIZE then e (i - ost) else b.byte i }
  else .error .dir

/-- `struct fat_file`; `clus` is the number stored where the field of that name points, `none` while
none is. -/
structure FatFile where
  name : ℕ → Byte
  attr : ℕ
  crc : Byte
  clus : Option ℤ

/-- A file slot that is zero. -/
def FatFile.zero : FatFile := ⟨fun _ => 0, 0, 0, none⟩

/-! ## string.c -/

/-- The loop of `strlen`; a name is an array of `FAT_LFN_MAX_LEN` bytes. -/
def strlenFrom (s : ℕ → Byte) : ℕ → ℕ → ℕ
  | 0, n => n
  | fuel + 1, n => if s n = 0 then n else strlenFrom s fuel (n + 1)

def strlen (s : ℕ → Byte) : ℕ := strlenFrom s FAT_LFN_MAX_LEN 0

/-- `strchr`, as the offset of what it finds. -/
def strchr (s : ℕ → Byte) (ch : Byte) : Option ℕ := (List.range (strlen s)).find? fun i => s i = ch

/-- `strncpy` to the offset `ost` of `dst`; it does not add a terminator. -/
def strncpy (dst : ℕ → Byte) (ost : ℕ) (src : ℕ → Byte) (cnt : ℤ) : ℕ → Byte :=
  if cnt < 1 then dst
  else fun i => if ost ≤ i ∧ i < ost + (min (strlen src) cnt).toNat then src (i - ost) else dst i

/-! ## From files to entries -/

/-- `_fat_crt_sfn` -/
def _fatCrtSfn (name : ℕ → Byte) (sfn : Entry) : Entry :=
  let padName : ℕ → Byte := fun i => if i < F32_SFN_LEN then 0x20 else 0
  let padName := match strchr name 0x2E with
    | some dot =>
      let ext := fun i => name (i + dot + 1)
      strncpy (strncpy padName 0 name (min dot 8)) 8 ext (min (strlen ext) 3)
    | none => strncpy padName 0 name (if strlen name ≥ F32_SFN_LEN then F32_SFN_LEN else strlen name)
  strncpy sfn 0 padName F32_SFN_LEN

/-- `fat_crt_sfn`; the validation of the name it starts with accepts every name. -/
def fatCrtSfn (file : FatFile) (sfn : Entry) : Entry :=
  Function.update (_fatCrtSfn file.name sfn) 11 (BitVec.ofNat 8 file.attr)

def fatGetLfns (n : ℕ) : ℕ := (n + (F32_LFN_LEN - 1)) / F32_LFN_LEN

def fatPadLfn (lfn : Entry) (len : ℕ) : Entry :=
  let n := len % F32_LFN_LEN
  if n = 0 then lfn
  else (List.range' n (F32_LFN_LEN - n)).foldl (fun lfn i =>
    Function.update (Function.update lfn (lfnOst i) (BitVec.ofNat 8 (lfnPad (i - n))))
      (lfnOst i + 1) (BitVec.ofNat 8 (lfnPad (i - n) / 256))) lfn

/-- `_fat_crt_lfn` -/
def _fatCrtLfn (dst : Entry) (s : ℕ → Byte) (n : ℕ) : Entry :=
  (List.range F32_LFN_LEN).foldl
    (fun dst i => Function.update dst (lfnOst i) (s (i + F32_LFN_LEN * n))) dst

/-- One round of the loop of `fat_crt_lfn`: `tmps[i]`. -/
def fatLfnAt (name : ℕ → Byte) (crc : Byte) (i : ℕ) : Entry :=
  let tmp : Entry := fun _ => 0
  let tmp := Function.update tmp 0 (BitVec.ofNat 8 (i + 1))
  let tmp := Function.update tmp 11 (tmp 11 ||| FAT_ATTR_LFN)
  let tmp := Function.update tmp 13 crc
  _fatCrtLfn tmp name i

/-- `fat_crt_lfn`: the long entries, in the order of the name. -/
def fatCrtLfn (name : ℕ → Byte) (crc : Byte) : Except Fault (ℕ → Entry) :=
  let len := strlen name
  let lfnNum := fatGetLfns len
  -- with no long entry `tmps[i-1]` is the one before the array
  if lfnNum = 0 then .error .lfns
  else
    let last := fatPadLfn (fatLfnAt name crc (lfnNum - 1)) len
    .ok (Function.update (fatLfnAt name crc) (lfnNum - 1)
      (Function.update last 0 (last 0 ||| FAT_LAST_LONG_ENTRY)))

/-- The loop of `fat_comb`, from `rde + i` on. -/
def fatCombLoop (lfns : ℕ → Entry) (rde n : ℕ) : ℕ → ℕ → Buffer → Except Fault Buffer
  | 0, _, b => .ok b
  | fuel + 1, i, b => do
    let b ← b.copyEntry (rde + i * FAT_ENTRY_SIZE) (lfns (n - i - 1))
    fatCombLoop lfns rde n fuel (i + 1) b

def fatComb (lfns : ℕ → Entry) (sfn : Entry) (rde n : ℕ) (b : Buffer) : Except Fault Buffer := do
  let b ← fatCombLoop lfns rde n n 0 b
  b.copyEntry (rde + n * FAT_ENTRY_SIZE) sfn

/-- The 16-bit field of an entry at `ost`. -/
def setField (e : Entry) (ost v : ℕ) : Entry :=
  Function.update (Function.update e ost (BitVec.ofNat 8 v)) (ost + 1) (BitVec.ofNat 8 (v / 256))

/-- `fat_conv_f2e`: the number of entries written at `de`. -/
def fatConvF2e (de : ℕ) (file : FatFile) (b : Buffer) : Except Fault (ℕ × Buffer) := do
  let lfnNum := fatGetLfns (strlen file.name)
  let sfn := fatCrtSfn file fun _ => 0
  let lfns ← fatCrtLfn file.name file.crc
  match file.clus with
  | none => .error .clus
  | some clus =>
    let sfn := setField sfn 20 (toU32 clus / 65536)
    let sfn := setField sfn 26 (toU32 clus % 65536)
    let b ← fatComb lfns sfn de lfnNum b
    .ok (lfnNum + 1, b)

/-- The loop of `fat_sync`: the groups of the files one after another, from `de` on. -/
def fatSyncLoop : ℕ → List FatFile → Buffer → Except Fault (ℕ × Buffer)
  | de, [], b => .ok (de, b)
  | de, file :: files, b => do
    let r ← fatConvF2e de file b
    fatSyncLoop (de + r.1 * FAT_ENTRY_SIZE) files r.2

/-! ## From entries to files -/

def fatGetOst (ent : Byte) : ℕ :=
  if ent &&& FAT_LAST_LONG_ENTRY = FAT_LAST_LONG_ENTRY then (ent &&& 0xBF).toNat else 1

/-- `tmp[k] = c` in `fat_parse_lfn` -/
def setTmp (tmp : ℕ → Byte) (k : ℕ) (c : Byte) : Except Fault (ℕ → Byte) :=
  if k < FAT_LFN_MAX_LEN then .ok (Function.update tmp k c) else .error .tmp

/-- The inner loop of `fat_parse_lfn`, from `j` on. -/
def fatParsePiece (b : Buffer) (ent i : ℕ) : ℕ → ℕ → (ℕ → Byte) → Except Fault (ℕ → Byte)
  | 0, _, tmp => .ok tmp
  | fuel + 1, j, tmp => do
    let c ← b.get (ent + lfnOst j)
    let tmp ← setTmp tmp (i * F32_LFN_LEN + j) c
    fatParsePiece b ent i fuel (j + 1) tmp

/-- The outer loop of `fat_parse_lfn`, from `i` on: `fuel` entries remain, the last of them at
`base`. -/
def fatParsePieces (b : Buffer) (base : ℕ) : ℕ → ℕ → (ℕ → Byte) → Except Fault (ℕ → Byte)
  | 0, _, tmp => .ok tmp
  | fuel + 1, i, tmp => do
    let tmp ← fatParsePiece b (base + fuel * FAT_ENTRY_SIZE) i F32_LFN_LEN 0 tmp
    fatParsePieces b base fuel (i + 1) tmp

def fatParseLfn (b : Buffer) (base ost : ℕ) (name : ℕ → Byte) : Except Fault (ℕ → Byte) := do
  let tmp ← fatParsePieces b base ost 0 fun _ => 0
  if ost * F32_LFN_LEN ≤ FAT_LFN_MAX_LEN then
    .ok fun k => if k < ost * F32_LFN_LEN then tmp k else name k
  else .error .name

/-- `fat_parse_name`; `fat_parse_sfn` does nothing. -/
def fatParseName (b : Buffer) (base ost : ℕ) (file : FatFile) : Except Fault FatFile := do
  let ord ← b.get base
  if ord &&& FAT_LAST_LONG_ENTRY ≠ 0 then
    let name ← fatParseLfn b base ost file.name
    .ok { file with name := name }
  else .ok file

/-- `fat_parse_clus`, where `yalloc` succeeds. -/
def fatParseClus (file : FatFile) (clus : ℤ) : FatFile :=
  if clus < -1 then file else { file with clus := some clus }

/-- The 16-bit field at `ost`. -/
def Buffer.field (b : Buffer) (ost : ℕ) : Except Fault ℕ := do
  let lo ← b.get ost
  let hi ← b.get (ost + 1)
  .ok (lo.toNat + 256 * hi.toNat)

def fatConvE2f (b : Buffer) (base ost : ℕ) (file : FatFile) : Except Fault FatFile := do
  let file ← fatParseName b base ost file
  let sfn := base + ost * FAT_ENTRY_SIZE
  let attr ← b.get (sfn + 11)
  let hi ← b.field (sfn + 20)
  let lo ← b.field (sfn + 26)
  .ok (fatParseClus { file with attr := attr.toNat } (toInt (hi * 65536 + lo : ℕ)))

/-- The step of the loops over a directory: `ent+=((ost+1)*FAT_ENTRY_SIZE)`. -/
def fatNext (b : Buffer) (ent : ℕ) : ℕ := ent + (fatGetOst (b.byte ent) + 1) * FAT_ENTRY_SIZE

/-- The loop of `fat_parse_entry`; `cap` file slots are there, all zero, and `files` are those
filled. -/
def fatParseLoop (b : Buffer) (cap : ℕ) : ℕ → ℕ → List FatFile → Except Fault (List FatFile)
  | 0, _, _ => .error .dir
  | fuel + 1, ent, files => do
    let c ← b.get ent
    if c = 0 then .ok files
    else if fatFree c then fatParseLoop b cap fuel (fatNext b ent) files
    else if files.length < cap then
      let file ← fatConvE2f b ent (fatGetOst c) FatFile.zero
      fatParseLoop b cap fuel (fatNext b ent) (files ++ [file])
    else .error .files

/-- `fat_parse_entry`.  Every round moves on in the buffer, so its size bounds the rounds. -/
def fatParseEntry (b : Buffer) (cap : ℕ) : Except Fault (List FatFile) :=
  fatParseLoop b cap (b.size + 1) 0 []

/-- The loop of `fat_get_entries`. -/
def fatGetEntriesLoop (b : Buffer) : ℕ → ℕ → ℕ → Except Fault ℕ
  | 0, _, _ => .error .dir
  | fuel + 1, ent, n => do
    let c ← b.get ent
    if c = 0 then .ok n
    else fatGetEntriesLoop b fuel (fatNext b ent) (if fatFree c then n else n + 1)

/-- `fat_get_entries` on the cluster it has read. -/
def fatGetEntries (b : Buffer) : Except Fault ℕ := fatGetEntriesLoop b (b.size + 1) 0 0

end YohdaOS.Fat
