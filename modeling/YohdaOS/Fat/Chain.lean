import YohdaOS.Fat.Geometry

/-!
# Following a cluster chain

`fat_get_next_entry` walks from cluster to cluster through the sectors of the FAT region.  It looks
the start cluster up four bytes to the entry; the places of the entries after it are computed from
the cluster number itself.
-/

namespace YohdaOS.Fat

/-- The disk: the bytes of each sector. -/
abbrev Sectors := ℕ → ℕ → Byte

/-- The bytes of the one entry of a command for one sector. -/
def SECTOR_BYTES : ℕ := 512

/-- `ahci_read_sector` -/
def ahciReadSector (disk : Sectors) (lba : ℕ) (buf : ℕ → Byte) : ℕ → Byte := fun i =>
  if i < SECTOR_BYTES then disk lba i else buf i

/-- `*(u32 *)&b[ost]` -/
def word (b : ℕ → Byte) (ost : ℕ) : ℕ :=
  (b ost).toNat + 256 * (b (ost + 1)).toNat + 65536 * (b (ost + 2)).toNat +
    16777216 * (b (ost + 3)).toNat

/-- The table `fat_offset`. -/
def fatOffset : FatType → ℕ
  | .fat12 => 2
  | .fat16 => 2
  | .fat32 => 4
  | .exfat => 0

def u16 (n : ℕ) : ℕ := n % 65536

/-- The length of the field `clus_chain`. -/
def CLUS_CHAIN_LEN : ℕ := 50

/-- What an access outside its array hits. -/
inductive ChainFault where
  /-- `fat_table`, the buffer of one sector -/
  | table
  /-- the field `clus_chain` of the file -/
  | chain
deriving DecidableEq, Repr

namespace FatVolume

variable (fat : FatVolume) (disk : Sectors)

def fatClusToSec (clus : ℕ) : ℕ := u32 (clus * fatOffset fat.type) / u16 fat.bps

def fatClusToByte (clus : ℕ) : ℕ := u32 (clus * fatOffset fat.type) % u16 fat.bps

/-- `fat_check_overflow`; its test is one of an unsigned difference. -/
def fatCheckOverflow (curSecNum nextFatEntry : ℕ) : ℕ :=
  let nextFsn := nextFatEntry / fat.bps
  if toU32 (nextFsn - curSecNum) ≥ 0 then nextFsn else toU32 (-1)

/-- `fat_read_fat_region` into a buffer of `bps` bytes. -/
def fatReadFatRegion (secNum : ℕ) (fatTable : ℕ → Byte) : Except ChainFault (ℤ × (ℕ → Byte)) :=
  if SECTOR_BYTES ≤ u16 fat.bps then .ok (0, ahciReadSector disk (u32 (fat.ffs + secNum)) fatTable)
  else .error .table

def fatUpdateTable (nextFsn : ℕ) (fatTable : ℕ → Byte) : Except ChainFault (ℤ × (ℕ → Byte)) :=
  if nextFsn = 0 then .ok (0, fatTable) else fat.fatReadFatRegion disk nextFsn fatTable

/-- The variables of the loop of `fat_get_next_entry`, with the field it fills. -/
structure ChainState where
  fatTable : ℕ → Byte
  fatByteOffset : ℕ
  i : ℕ
  clusChain : ℕ → ℕ

/-- `next_fat_entry` in the round that starts at the offset. -/
def fatEntry (fatTable : ℕ → Byte) (ost : ℕ) : ℕ := word fatTable ost &&& 0x0FFFFFFF

/-- The entry ends the chain. -/
def fatEnd (entry : ℕ) : Prop := entry ≥ 0xFFFFFF8 ∧ entry ≤ 0xFFFFFFF

instance (entry : ℕ) : Decidable (fatEnd entry) := inferInstanceAs (Decidable (_ ∧ _))

/-- One round of the loop: a new state, or the value returned and the field. -/
def fatNextEntryStep (fatSectorNumber : ℕ) (s : ChainState) :
    Except ChainFault (ChainState ⊕ ℤ × (ℕ → ℕ)) :=
  if fat.type = .fat32 then
    if s.fatByteOffset + 4 ≤ u16 fat.bps then
      let nextFatEntry := fatEntry s.fatTable s.fatByteOffset
      if s.i < CLUS_CHAIN_LEN then
        let clusChain := Function.update s.clusChain s.i nextFatEntry
        if fatEnd nextFatEntry then .ok (.inr (0, clusChain))
        else do
          let nextFsn := fat.fatCheckOverflow fatSectorNumber nextFatEntry
          let r ← fat.fatUpdateTable disk nextFsn s.fatTable
          .ok (.inl ⟨r.2, nextFatEntry % u16 fat.bps, s.i + 1, clusChain⟩)
      else .error .chain
    else .error .table
  else .ok (.inl s)

/-- The loop, `none` while it has not come to an end. -/
def fatNextEntryLoop (fatSectorNumber : ℕ) :
    ℕ → ChainState → Option (Except ChainFault (ℤ × (ℕ → ℕ)))
  | 0, _ => none
  | fuel + 1, s =>
    match fat.fatNextEntryStep disk fatSectorNumber s with
    | .error e => some (.error e)
    | .ok (.inr r) => some (.ok r)
    | .ok (.inl s') => fatNextEntryLoop fatSectorNumber fuel s'

/-- `fat_get_next_entry`, where `garbage` and `i` are what the buffer and the index hold at first. -/
def fatGetNextEntry (fuel clus : ℕ) (garbage : ℕ → Byte) (i : ℕ) (clusChain : ℕ → ℕ) :
    Option (Except ChainFault (ℤ × (ℕ → ℕ))) :=
  let fatSectorNumber := fat.fatClusToSec clus
  match fat.fatReadFatRegion disk fatSectorNumber garbage with
  | .error e => some (.error e)
  | .ok r =>
    if r.1 ≠ 0 then some (.ok (-1, clusChain))
    else fat.fatNextEntryLoop disk fatSectorNumber fuel ⟨r.2, fat.fatClusToByte clus, i, clusChain⟩

/-! ## The walk the code makes -/

/-- The buffer after the sector with the next entry has been fetched into it: sector 0 is not. -/
def tableAt (nextFsn : ℕ) (fatTable : ℕ → Byte) : ℕ → Byte :=
  if nextFsn = 0 then fatTable else ahciReadSector disk (u32 (fat.ffs + nextFsn)) fatTable

/-- The entries found when each is looked for where the loop looks for it, up to the first that ends
the chain, all of them inside the buffer. -/
inductive Leads : (ℕ → Byte) → ℕ → List ℕ → Prop
  | last {b : ℕ → Byte} {ost e : ℕ} (hin : ost + 4 ≤ u16 fat.bps) (he : fatEntry b ost = e)
      (hend : fatEnd e) : Leads b ost [e]
  | link {b : ℕ → Byte} {ost e : ℕ} {es : List ℕ} (hin : ost + 4 ≤ u16 fat.bps)
      (he : fatEntry b ost = e) (hend : ¬fatEnd e)
      (hrest : Leads (fat.tableAt disk (e / fat.bps) b) (e % u16 fat.bps) es) : Leads b ost (e :: es)

/-- The field after the entries have been stored from index `i` on. -/
def storeFrom (chain : ℕ → ℕ) : ℕ → List ℕ → ℕ → ℕ
  | _, [] => chain
  | i, e :: es => storeFrom (Function.update chain i e) (i + 1) es

variable {fat disk}

theorem fatCheckOverflow_eq (cur entry : ℕ) : fat.fatCheckOverflow cur entry = entry / fat.bps := by
  rw [fatCheckOverflow, if_pos (Nat.zero_le _)]

theorem fatReadFatRegion_eq (hbps : SECTOR_BYTES ≤ u16 fat.bps) (sec : ℕ) (b : ℕ → Byte) :
    fat.fatReadFatRegion disk sec b = .ok (0, ahciReadSector disk (u32 (fat.ffs + sec)) b) := by
  rw [fatReadFatRegion, if_pos hbps]

theorem fatUpdateTable_eq (hbps : SECTOR_BYTES ≤ u16 fat.bps) (sec : ℕ) (b : ℕ → Byte) :
    fat.fatUpdateTable disk sec b = .ok (0, fat.tableAt disk sec b) := by
  rw [fatUpdateTable, tableAt, fatReadFatRegion_eq hbps]
  split_ifs <;> rfl

/-- What one round does on a FAT32 volume. -/
theorem fatNextEntryStep_fat32 (h32 : fat.type = .fat32) (hbps : SECTOR_BYTES ≤ u16 fat.bps)
    (sec : ℕ) (s : ChainState) :
    fat.fatNextEntryStep disk sec s =
      let e := fatEntry s.fatTable s.fatByteOffset
      if s.fatByteOffset + 4 ≤ u16 fat.bps then
        if s.i < CLUS_CHAIN_LEN then
          if fatEnd e then .ok (.inr (0, Function.update s.clusChain s.i e))
          else .ok (.inl ⟨fat.tableAt disk (e / fat.bps) s.fatTable, e % u16 fat.bps, s.i + 1,
            Function.update s.clusChain s.i e⟩)
        else .error .chain
      else .error .table := by
  simp only [fatNextEntryStep, if_pos h32, fatCheckOverflow_eq, fatUpdateTable_eq hbps, ok_bind]

/-- A walk with room for its entries is what the loop makes. -/
theorem loop_of_leads (h32 : fat.type = .fat32) (hbps : SECTOR_BYTES ≤ u16 fat.bps) (sec : ℕ)
    {s : ChainState} {es : List ℕ} (h : fat.Leads disk s.fatTable s.fatByteOffset es)
    (hroom : s.i + es.length ≤ CLUS_CHAIN_LEN) :
    fat.fatNextEntryLoop disk sec es.length s = some (.ok (0, storeFrom s.clusChain s.i es)) := by
  obtain ⟨b, ost, i, chain⟩ := s
  simp only at h hroom ⊢
  induction h generalizing i chain with
  | last hin he hend =>
    rw [List.length_singleton] at hroom ⊢
    rw [fatNextEntryLoop, fatNextEntryStep_fat32 h32 hbps]
    simp only [he, if_pos hin, if_pos hend, if_pos (show i < CLUS_CHAIN_LEN by omega)]
    rfl
  | link hin he hend hrest ih =>
    rw [List.length_cons] at hroom ⊢
    rw [fatNextEntryLoop, fatNextEntryStep_fat32 h32 hbps]
    simp only [he, if_pos hin, if_neg hend, if_pos (show i < CLUS_CHAIN_LEN by omega)]
    exact ih (i + 1) _ (by omega)

/-- The loop comes to a good end along a walk only. -/
theorem leads_of_loop (hbps : SECTOR_BYTES ≤ u16 fat.bps) {sec fuel : ℕ} {s : ChainState} {r : ℤ × (ℕ → ℕ)}
    (h : fat.fatNextEntryLoop disk sec fuel s = some (.ok r)) :
    fat.type = .fat32 ∧ ∃ es, fat.Leads disk s.fatTable s.fatByteOffset es ∧
      s.i + es.length ≤ CLUS_CHAIN_LEN ∧ r = (0, storeFrom s.clusChain s.i es) := by
  induction fuel generalizing s with
  | zero => cases h
  | succ fuel ih =>
    by_cases h32 : fat.type = .fat32
    · refine ⟨h32, ?_⟩
      rw [fatNextEntryLoop, fatNextEntryStep_fat32 h32 hbps] at h
      simp only at h
      by_cases hin : s.fatByteOffset + 4 ≤ u16 fat.bps
      · by_cases hroom : s.i < CLUS_CHAIN_LEN
        · by_cases hend : fatEnd (fatEntry s.fatTable s.fatByteOffset)
          · rw [if_pos hin, if_pos hroom, if_pos hend] at h
            simp only [Option.some.injEq, Except.ok.injEq] at h
            exact ⟨_, .last hin rfl hend, hroom, h.symm⟩
          · rw [if_pos hin, if_pos hroom, if_neg hend] at h
            obtain ⟨-, es, hes, hlen, hr⟩ := ih h
            simp only at hes hlen hr
            refine ⟨_ :: es, .link hin rfl hend hes, ?_, hr⟩
            rw [List.length_cons]
            omega
        · rw [if_pos hin, if_neg hroom] at h
          cases h
      · rw [if_neg hin] at h
        cases h
    · rw [fatNextEntryLoop, fatNextEntryStep, if_neg h32] at h
      exact absurd (ih h).1 h32

/-- The first read fits the buffer, or leaves it. -/
theorem getNextEntry_eq (fuel clus : ℕ) (garbage : ℕ → Byte) (i : ℕ) (chain : ℕ → ℕ) :
    fat.fatGetNextEntry disk fuel clus garbage i chain =
      if SECTOR_BYTES ≤ u16 fat.bps then
        fat.fatNextEntryLoop disk (fat.fatClusToSec clus) fuel
          ⟨ahciReadSector disk (u32 (fat.ffs + fat.fatClusToSec clus)) garbage,
            fat.fatClusToByte clus, i, chain⟩
      else some (.error .table) := by
  by_cases hbps : SECTOR_BYTES ≤ u16 fat.bps
  · simp only [fatGetNextEntry, fatReadFatRegion_eq hbps, if_pos hbps, ne_eq, not_true,
      if_false]
  · simp only [fatGetNextEntry, fatReadFatRegion, if_neg hbps]

/-- The walk from a start cluster. -/
def LeadsFrom (fat : FatVolume) (disk : Sectors) (clus : ℕ) (garbage : ℕ → Byte) (es : List ℕ) :
    Prop :=
  fat.Leads disk (ahciReadSector disk (u32 (fat.ffs + fat.fatClusToSec clus)) garbage)
    (fat.fatClusToByte clus) es

/-- What `fat_get_next_entry` returns where it comes to a good end. -/
theorem getNextEntry_ok_iff {clus i : ℕ} {garbage : ℕ → Byte} {chain : ℕ → ℕ} {r : ℤ × (ℕ → ℕ)} :
    (∃ fuel, fat.fatGetNextEntry disk fuel clus garbage i chain = some (.ok r)) ↔
      fat.type = .fat32 ∧ SECTOR_BYTES ≤ u16 fat.bps ∧ ∃ es, fat.LeadsFrom disk clus garbage es ∧
        i + es.length ≤ CLUS_CHAIN_LEN ∧ r = (0, storeFrom chain i es) := by
  constructor
  · rintro ⟨fuel, h⟩
    rw [getNextEntry_eq] at h
    by_cases hbps : SECTOR_BYTES ≤ u16 fat.bps
    · rw [if_pos hbps] at h
      obtain ⟨h32, es, hes⟩ := leads_of_loop hbps h
      exact ⟨h32, hbps, es, hes⟩
    · rw [if_neg hbps] at h
      cases h
  · rintro ⟨h32, hbps, es, hes, hlen, rfl⟩
    refine ⟨es.length, ?_⟩
    rw [getNextEntry_eq, if_pos hbps]
    exact loop_of_leads h32 hbps _ hes hlen

/-! ## Termination and bounds -/

/-- `fat_get_next_entry` comes to an end without leaving its arrays exactly on FAT32 volumes with
sectors of 512 bytes at least, where the table leads, at the places where the loop looks, to an end of
the chain while the array has room. -/
theorem get_next_entry_safe_iff (fat : FatVolume) (disk : Sectors) (clus : ℕ) (garbage : ℕ → Byte)
    (i : ℕ) (chain : ℕ → ℕ) :
    (∃ fuel r, fat.fatGetNextEntry disk fuel clus garbage i chain = some (.ok r)) ↔
      fat.type = .fat32 ∧ SECTOR_BYTES ≤ u16 fat.bps ∧ ∃ es, fat.LeadsFrom disk clus garbage es ∧
        i + es.length ≤ CLUS_CHAIN_LEN := by
  rw [exists_comm]
  simp only [getNextEntry_ok_iff]
  constructor
  · rintro ⟨r, h32, hbps, es, hes, hlen, -⟩
    exact ⟨h32, hbps, es, hes, hlen⟩
  · rintro ⟨h32, hbps, es, hes, hlen⟩
    exact ⟨_, h32, hbps, es, hes, hlen, rfl⟩

/-- On a FAT12 volume the loop does nothing for ever. -/
theorem get_next_entry_safe_fails : ¬∀ (bpb : BiosParamBlk) (fat : FatVolume),
    fatInit bpb = some fat → ∀ (disk : Sectors) (clus : ℕ) (garbage : ℕ → Byte) (i : ℕ)
      (chain : ℕ → ℕ),
      ∃ fuel r, fat.fatGetNextEntry disk fuel clus garbage i chain = some (.ok r) := by
  intro hall
  have h := hall (tinyBlk 1 7) (tinyVol 1 2) rfl (fun _ _ => 0) 2 (fun _ => 0) 0 fun _ => 0
  rw [exists_comm] at h
  obtain ⟨r, h⟩ := h
  exact absurd (getNextEntry_ok_iff.1 h).1 (by decide)

/-! ## The chain of a cluster -/

/-- The entry of a cluster in the table. -/
def tableEntry (fat : FatVolume) (disk : Sectors) (clus : ℕ) : ℕ :=
  fatEntry (disk (fat.ffs + 4 * clus / fat.bps)) (4 * clus % fat.bps)

/-- The chain of a cluster, up to the value that ends it. -/
inductive ChainOf (fat : FatVolume) (disk : Sectors) : ℕ → List ℕ → Prop
  | last {c : ℕ} (hend : fatEnd (fat.tableEntry disk c)) : ChainOf fat disk c [fat.tableEntry disk c]
  | link {c : ℕ} {cs : List ℕ} (hend : ¬fatEnd (fat.tableEntry disk c))
      (hrest : ChainOf fat disk (fat.tableEntry disk c) cs) :
      ChainOf fat disk c (fat.tableEntry disk c :: cs)

/-- The last value ends a chain, the others do not. -/
inductive Ends : List ℕ → Prop
  | last {e : ℕ} (hend : fatEnd e) : Ends [e]
  | link {e : ℕ} {es : List ℕ} (hend : ¬fatEnd e) (hrest : Ends es) : Ends (e :: es)

theorem Leads.ends {b : ℕ → Byte} {ost : ℕ} {es : List ℕ} (h : fat.Leads disk b ost es) :
    Ends es := by
  induction h with
  | last _ _ hend => exact .last hend
  | link _ _ hend _ ih => exact .link hend ih

theorem ChainOf.ends {c : ℕ} {cs : List ℕ} (h : fat.ChainOf disk c cs) : Ends cs := by
  induction h with
  | last hend => exact .last hend
  | link hend _ ih => exact .link hend ih

theorem storeFrom_of_lt (chain : ℕ → ℕ) {i k : ℕ} (es : List ℕ) (hk : k < i) :
    storeFrom chain i es k = chain k := by
  induction es generalizing chain i with
  | nil => rfl
  | cons e es ih =>
    rw [storeFrom, ih _ (by omega)]
    exact Function.update_of_ne (by omega) _ _

theorem storeFrom_cons_self (chain : ℕ → ℕ) (i e : ℕ) (es : List ℕ) :
    storeFrom chain i (e :: es) i = e := by
  rw [storeFrom, storeFrom_of_lt _ _ (by omega)]
  exact Function.update_self _ _ _

/-- What is stored tells two chains apart. -/
theorem Ends.eq_of_store {es cs : List ℕ} (hes : Ends es) (hcs : Ends cs) {chain : ℕ → ℕ} {i : ℕ}
    (h : storeFrom chain i es = storeFrom chain i cs) : es = cs := by
  induction hes generalizing cs chain i with
  | last hend =>
    cases hcs with
    | last hend' =>
      have hi := congrFun h i
      rw [storeFrom_cons_self, storeFrom_cons_self] at hi
      rw [hi]
    | link hend' hrest =>
      have hi := congrFun h i
      rw [storeFrom_cons_self, storeFrom_cons_self] at hi
      exact absurd (hi ▸ hend) hend'
  | link hend hrest ih =>
    cases hcs with
    | last hend' =>
      have hi := congrFun h i
      rw [storeFrom_cons_self, storeFrom_cons_self] at hi
      exact absurd (hi ▸ hend') hend
    | link hend' hrest' =>
      have hi := congrFun h i
      rw [storeFrom_cons_self, storeFrom_cons_self] at hi
      subst hi
      rw [ih hrest' h]

/-- The first entry is read from its place, when that is among the bytes a read transfers. -/
theorem fatEntry_first (h32 : fat.type = .fat32) (hbps : fat.bps < 65536) {clus : ℕ}
    (hclus : 4 * clus < 4294967296) (hffs : fat.ffs + 4 * clus / fat.bps < 4294967296)
    (hin : 4 * clus % fat.bps + 4 ≤ SECTOR_BYTES) (garbage : ℕ → Byte) :
    fatEntry (ahciReadSector disk (u32 (fat.ffs + fat.fatClusToSec clus)) garbage)
      (fat.fatClusToByte clus) = fat.tableEntry disk clus := by
  have h16 : u16 fat.bps = fat.bps := Nat.mod_eq_of_lt hbps
  have h4 : u32 (clus * 4) = 4 * clus := by
    rw [Nat.mul_comm]
    exact u32_of_lt hclus
  have hsec : fat.fatClusToSec clus = 4 * clus / fat.bps := by
    rw [fatClusToSec, h32, fatOffset, h4, h16]
  have hbyte : fat.fatClusToByte clus = 4 * clus % fat.bps := by
    rw [fatClusToByte, h32, fatOffset, h4, h16]
  rw [hsec, hbyte, u32_of_lt hffs, tableEntry, fatEntry, fatEntry, word, word]
  simp only [ahciReadSector, if_pos (show 4 * clus % fat.bps < SECTOR_BYTES by omega),
    if_pos (show 4 * clus % fat.bps + 1 < SECTOR_BYTES by omega),
    if_pos (show 4 * clus % fat.bps + 2 < SECTOR_BYTES by omega),
    if_pos (show 4 * clus % fat.bps + 3 < SECTOR_BYTES by omega)]

theorem chain_stored_iff (h32 : fat.type = .fat32) (hlo : 512 ≤ fat.bps) (hhi : fat.bps < 65536)
    {clus : ℕ} {cs : List ℕ} (hcs : fat.ChainOf disk clus cs) (hlen : cs.length ≤ CLUS_CHAIN_LEN)
    (garbage : ℕ → Byte) (chain : ℕ → ℕ) :
    (∃ fuel, fat.fatGetNextEntry disk fuel clus garbage 0 chain =
      some (.ok (0, storeFrom chain 0 cs))) ↔ fat.LeadsFrom disk clus garbage cs := by
  have hbps : SECTOR_BYTES ≤ u16 fat.bps := by
    rw [u16, Nat.mod_eq_of_lt hhi]
    exact hlo
  rw [getNextEntry_ok_iff]
  constructor
  · rintro ⟨-, -, es, hes, -, hr⟩
    rw [Prod.mk.injEq] at hr
    obtain rfl := hcs.ends.eq_of_store hes.ends hr.2
    exact hes
  · intro h
    exact ⟨h32, hbps, cs, h, by omega, rfl⟩

/-- The chain of a cluster is what `fat_get_next_entry` stores exactly when each entry is also found
where the loop looks for it: after the first, at the byte and in the sector that the cluster number
itself gives. -/
theorem get_next_entry_chain_iff (fat : FatVolume) (disk : Sectors) (h32 : fat.type = .fat32)
    (hlo : 512 ≤ fat.bps) (hhi : fat.bps < 65536) (clus : ℕ) (cs : List ℕ)
    (hcs : fat.ChainOf disk clus cs) (hlen : cs.length ≤ CLUS_CHAIN_LEN) (garbage : ℕ → Byte)
    (chain : ℕ → ℕ) :
    (∃ fuel, fat.fatGetNextEntry disk fuel clus garbage 0 chain =
      some (.ok (0, storeFrom chain 0 cs))) ↔ fat.LeadsFrom disk clus garbage cs :=
  chain_stored_iff h32 hlo hhi hcs hlen garbage chain

/-- A FAT32 volume with sectors of 512 bytes. -/
def vol32 : FatVolume := { tinyVol 1 65536 with type := .fat32 }

/-- Cluster 2 is followed by 16, this one by 32, the last one; the entries are at the bytes 4 times the
numbers and at the bytes of the numbers themselves. -/
def doubleTable : Sectors := fun _ i =>
  if i = 8 then 16 else if i = 16 ∨ i = 64 then 32
  else if (32 ≤ i ∧ i < 36) ∨ (128 ≤ i ∧ i < 132) then 0xFF else 0

theorem get_next_entry_chain_iff_three : ∃ fuel,
    vol32.fatGetNextEntry doubleTable fuel 2 (fun _ => 0) 0 (fun _ => 0) =
      some (.ok (0, storeFrom (fun _ => 0) 0 [16, 32, 0xFFFFFFF])) := by
  have hfirst : vol32.tableEntry doubleTable 2 = 16 := by decide
  have hsecond : vol32.tableEntry doubleTable 16 = 32 := by decide
  have hthird : vol32.tableEntry doubleTable 32 = 0xFFFFFFF := by decide
  have hchain : vol32.ChainOf doubleTable 2 [16, 32, 0xFFFFFFF] := by
    rw [← hthird, ← hsecond, ← hfirst]
    refine .link (by rw [hfirst]; decide) ?_
    rw [hfirst]
    refine .link (by rw [hsecond]; decide) ?_
    rw [hsecond]
    exact .last (by rw [hthird]; decide)
  apply (get_next_entry_chain_iff vol32 doubleTable rfl (by decide) (by decide) 2 _ hchain
    (by decide) _ _).2
  refine Leads.link (by decide) ?_ (by decide) (Leads.link (by decide) (by decide) (by decide)
    (Leads.last (by decide) (by decide) (by decide)))
  rw [fatEntry_first rfl (by decide) (by decide) (by decide) (by decide), hfirst]

/-- Cluster 2 is followed by cluster 3, the last one. -/
def shortTable : Sectors := fun _ i =>
  if i = 8 then 3 else if 12 ≤ i ∧ i < 16 then 0xFF else 0

/-- The entry of cluster 3 is looked for at byte 3. -/
theorem get_next_entry_chain_fails : ¬∀ (fat : FatVolume) (disk : Sectors) (clus : ℕ) (cs : List ℕ)
    (garbage : ℕ → Byte) (chain : ℕ → ℕ), fat.type = .fat32 → 512 ≤ fat.bps → fat.bps < 65536 →
    fat.ChainOf disk clus cs → cs.length ≤ CLUS_CHAIN_LEN →
    ∃ fuel, fat.fatGetNextEntry disk fuel clus garbage 0 chain =
      some (.ok (0, storeFrom chain 0 cs)) := by
  intro hall
  have htwo : vol32.tableEntry shortTable 2 = 3 := by decide
  have hthree : vol32.tableEntry shortTable 3 = 0xFFFFFFF := by decide
  have hchain : vol32.ChainOf shortTable 2 [3, 0xFFFFFFF] := by
    rw [← htwo, ← hthree]
    refine .link (by rw [htwo]; decide) ?_
    rw [htwo]
    exact .last (by rw [hthree]; decide)
  have h := hall vol32 shortTable 2 _ (fun _ => 0) (fun _ => 0) rfl (by decide) (by decide) hchain
    (by decide)
  rw [chain_stored_iff rfl (by decide) (by decide) hchain (by decide)] at h
  cases h with
  | link _ _ _ hrest =>
    cases hrest with
    | last _ he _ => exact absurd he (by decide)
    | link _ he _ _ => exact absurd he (by decide)

end FatVolume

end YohdaOS.Fat
