import YohdaOS.Fat.Checksum
import YohdaOS.Fat.Sync

/-!
# Encoding again what was decoded

The decoder recovers the name, the attribute and the cluster of a file from its group, and leaves the
checksum of the file zero.  The group that the file is encoded to again has that zero in its long
entries.
-/

namespace YohdaOS.Fat

/-- Decoding what the encoder has written and encoding it again changes nothing. -/
def Reencodes (files : List FatFile) (size cap : ℕ) : Prop :=
  ∃ de b out, fatSyncLoop 0 files ⟨fun _ => 0, size⟩ = .ok (de, b) ∧
    fatParseEntry b cap = .ok out ∧ fatSyncLoop 0 out ⟨fun _ => 0, size⟩ = .ok (de, b)

/-- A second sync, of the files read back after the first one, leaves the disk as it was. -/
def FatInfo.Settles (fat : FatInfo) (files : List FatFile) : Prop :=
  ∀ garbage garbage' disk, ∃ disk' out, fat.fatSync garbage files disk = .ok (0, disk') ∧
    fat.fatParseDir disk' 0 = .ok out ∧ fat.fatSync garbage' out disk' = .ok (0, disk')

variable {s : List Byte} {f g : FatFile} {name name' : ℕ → Byte} {crc : Byte} {len i k x : ℕ}
  {b b' : Buffer} {de cap : ℕ} {files out : List FatFile}

/-! ## The bytes of a group -/

/-- Writes of the same bytes keep two entries equal at an offset. -/
theorem foldl_congr_at {α : Type} {h : Entry → α → Entry} {l : List α} {e e' : Entry}
    (hh : ∀ y e e', e k = e' k → h e y k = h e' y k) (heq : e k = e' k) :
    l.foldl h e k = l.foldl h e' k := by
  induction l generalizing e e' with
  | nil => exact heq
  | cons y l ih => exact ih (hh y e e' heq)

theorem update_congr_at {e e' : Entry} (heq : e k = e' k) (j : ℕ) (v : Byte) :
    Function.update e j v k = Function.update e' j v k := by
  simp only [Function.update_apply, heq]

theorem fatPadLfn_congr {e e' : Entry} (heq : e k = e' k) (len : ℕ) :
    fatPadLfn e len k = fatPadLfn e' len k := by
  rw [fatPadLfn_eq, fatPadLfn_eq]
  split_ifs
  · exact heq
  · exact foldl_congr_at (fun _ _ _ h => update_congr_at (update_congr_at h _ _) _ _) heq

/-- Apart from the pieces of the name, a long entry does not depend on it. -/
theorem lfnsOf_of_ne (hk : ∀ j < 13, k ≠ lfnOst j) :
    lfnsOf name crc len i k = lfnsOf name' crc len i k := by
  have hat (i k : ℕ) (hk : ∀ j < 13, k ≠ lfnOst j) : fatLfnAt name crc i k = fatLfnAt name' crc i k := by
    rw [fatLfnAt, fatLfnAt, _fatCrtLfn_of_ne _ hk, _fatCrtLfn_of_ne _ hk]
  unfold lfnsOf
  by_cases hlast : i = fatGetLfns len - 1
  · rw [hlast, Function.update_self, Function.update_self,
      fatPadLfn_congr (hat _ 0 (by decide)) len]
    exact update_congr_at (fatPadLfn_congr (hat _ k hk) len) _ _
  · rw [Function.update_of_ne hlast, Function.update_of_ne hlast]
    exact hat i k hk

theorem lfnsOf_congr (h : ∀ j < len, name j = name' j) (hlen : 1 ≤ len) (hi : i < fatGetLfns len) :
    lfnsOf name crc len i k = lfnsOf name' crc len i k := by
  by_cases hk : ∃ j < 13, k = lfnOst j
  · obtain ⟨j, hj, rfl⟩ := hk
    rw [lfnsOf_ost hlen hi hj, lfnsOf_ost hlen hi hj]
    split_ifs with hin
    · exact h _ hin
    · rfl
    · rfl
  · push Not at hk
    exact lfnsOf_of_ne hk

theorem sfnOf_congr (hf : Named f.name s) (hg : Named g.name s) (hlen : s.length < 256)
    (hattr : g.attr = f.attr) (clus : ℤ) : sfnOf g clus = sfnOf f clus := by
  have hname : _fatCrtSfn g.name (fun _ => 0) = _fatCrtSfn f.name fun _ => 0 := by
    funext j
    rw [_fatCrtSfn_apply hg hlen, _fatCrtSfn_apply hf hlen]
  rw [sfnOf, sfnOf, fatCrtSfn, fatCrtSfn, hname, hattr]

/-- Two files with the same name and attribute have the same group if they have the same checksum. -/
theorem groupByte_congr (hf : Named f.name s) (hg : Named g.name s) (hpos : 1 ≤ s.length)
    (hlen : s.length < 256) (hattr : g.attr = f.attr) (hcrc : g.crc = f.crc) (clus : ℤ) (x : ℕ) :
    g.groupByte clus x = f.groupByte clus x := by
  rw [FatFile.groupByte, FatFile.groupByte, hf.strlen hlen, hg.strlen hlen, hcrc,
    sfnOf_congr hf hg hlen hattr]
  split_ifs with hin
  · refine lfnsOf_congr (fun j hj => ?_) hpos (by omega)
    rw [hf.byte j hj, hg.byte j hj]
  · rfl

/-- Byte 13 of a group is the checksum. -/
theorem groupByte_crc (h : 1 ≤ strlen f.name) (clus : ℤ) : f.groupByte clus 13 = f.crc := by
  have hlt : 13 / 32 < fatGetLfns (strlen f.name) := by
    unfold fatGetLfns F32_LFN_LEN
    omega
  have hmod : 13 % 32 = 13 := rfl
  rw [FatFile.groupByte, if_pos hlt, hmod, lfnsOf_crc]

/-! ## What is read back -/

theorem fatParseClus_crc (file : FatFile) (clus : ℤ) : (fatParseClus file clus).crc = file.crc := by
  unfold fatParseClus
  split_ifs <;> rfl

theorem fileAt_crc (b : Buffer) (ent : ℕ) : (fileAt b ent).crc = 0 := fatParseClus_crc _ _

theorem crc_of_parse (h : fatParseEntry b cap = .ok out) : ∀ g ∈ out, g.crc = 0 := by
  obtain ⟨m, hwalk, hcap⟩ := walk_of_parse h (Nat.zero_le _)
  rw [List.length_nil, Nat.zero_add] at hcap
  rw [hwalk.parseEntry hcap, Except.ok.injEq] at h
  subst h
  intro g hg
  obtain ⟨ent, -, rfl⟩ := List.mem_map.1 hg
  exact fileAt_crc b ent

theorem strlenFrom_stop {fuel n : ℕ} (h : strlenFrom name fuel n < n + fuel) :
    name (strlenFrom name fuel n) = 0 := by
  induction fuel generalizing n with
  | zero => exact absurd h (by rw [strlenFrom]; omega)
  | succ fuel ih =>
    rw [strlenFrom] at h ⊢
    split_ifs at h ⊢ with hzero
    · exact hzero
    · exact ih (by omega)

theorem named_of_cstr (h : cstr name = s) (hlen : s.length < 256) : Named name s := by
  have hstrlen : strlen name = s.length := by
    rw [← h, cstr, List.length_map, List.length_range]
  subst h
  refine ⟨fun i hi => ?_, ?_, ?_⟩
  · simp only [cstr, List.getElem_map, List.getElem_range]
  · rw [← hstrlen]
    exact strlenFrom_stop (by rw [FAT_LFN_MAX_LEN]; change strlen name < _; omega)
  · intro hmem
    obtain ⟨i, hi, hzero⟩ := List.mem_map.1 hmem
    exact ne_zero_of_lt_strlenFrom (Nat.zero_le i) (List.mem_range.1 hi) hzero

/-- The name of a file read back. -/
theorem named_of_key (hf : Named f.name s) (hlen : s.length < 256) (hkey : g.key = f.key) :
    Named g.name s :=
  named_of_cstr ((cstr_of_key hkey).trans (hf.cstr hlen)) hlen

theorem attr_of_key (hkey : g.key = f.key) : g.attr = f.attr := congrArg (·.2.1) hkey

theorem clus_of_key (hkey : g.key = f.key) : g.clus = f.clus := congrArg (·.2.2) hkey

theorem FatFile.Storable.of_key (hf : f.Storable) (hkey : g.key = f.key) : g.Storable := by
  obtain ⟨s, hs, hlo, hhi⟩ := hf.name
  exact ⟨⟨s, named_of_key hs (by omega) hkey, hlo, hhi⟩, attr_of_key hkey ▸ hf.attr,
    clus_of_key hkey ▸ hf.clus⟩

theorem slots_of_key (hf : f.Storable) (hkey : g.key = f.key) : g.slots = f.slots := by
  obtain ⟨s, hs, hlo, hhi⟩ := hf.name
  rw [FatFile.slots, FatFile.slots, hs.strlen (by omega),
    (named_of_key hs (by omega) hkey).strlen (by omega)]

/-- A group read back and written again is the same exactly if its checksum is 0. -/
theorem group_again_iff (hf : f.Storable) (hkey : g.key = f.key) (hcrc : g.crc = 0)
    (h : GroupAt b de f) (h' : GroupAt b' de g) :
    (∀ x < f.slots * 32, b'.byte (de + x) = b.byte (de + x)) ↔ f.crc = 0 := by
  obtain ⟨s, hs, hlo, hhi⟩ := hf.name
  have hg := named_of_key hs (by omega) hkey
  have hslots := slots_of_key hf hkey
  have hpos : 1 ≤ f.slots := by
    rw [FatFile.slots]
    omega
  obtain ⟨clus, hclus, hbyte⟩ := h
  obtain ⟨clus', hclus', hbyte'⟩ := h'
  obtain rfl : clus' = clus :=
    Option.some.inj (hclus'.symm.trans ((clus_of_key hkey).trans hclus))
  rw [hslots] at hbyte'
  constructor
  · intro hsame
    have hcrc₁ : g.groupByte clus' 13 = g.crc :=
      groupByte_crc (by rw [hg.strlen (by omega)]; exact hlo) clus'
    have hcrc₂ : f.groupByte clus' 13 = f.crc := groupByte_crc hf.strlen.1 clus'
    rw [← hcrc₂, ← hbyte 13 (by omega), ← hsame 13 (by omega), hbyte' 13 (by omega), hcrc₁, hcrc]
  · intro hzero x hx
    rw [hbyte x hx, hbyte' x hx]
    exact groupByte_congr hs hg hlo (by omega) (attr_of_key hkey) (hcrc.trans hzero.symm) clus' x

/-- The same for a directory. -/
theorem groups_again_iff (hf : ∀ f ∈ files, f.Storable)
    (hkeys : out.map FatFile.key = files.map FatFile.key) (hcrc : ∀ g ∈ out, g.crc = 0)
    (h : Groups b de files) (h' : Groups b' de out) :
    (∀ x < groupBytes files, b'.byte (de + x) = b.byte (de + x)) ↔ ∀ f ∈ files, f.crc = 0 := by
  induction files generalizing de out with
  | nil => exact iff_of_true (fun x hx => absurd hx (Nat.not_lt_zero x)) (by simp)
  | cons f files ih =>
    cases out with
    | nil => cases hkeys
    | cons g out =>
      obtain ⟨hkey, hkeys⟩ := List.cons.inj hkeys
      obtain ⟨hgroup, hgroups⟩ := h
      obtain ⟨hgroup', hgroups'⟩ := h'
      have hfirst := hf f List.mem_cons_self
      rw [slots_of_key hfirst hkey] at hgroups'
      have hone := group_again_iff hfirst hkey (hcrc g List.mem_cons_self) hgroup hgroup'
      have hrest := ih (fun f hmem => hf f (List.mem_cons_of_mem _ hmem)) hkeys
        (fun g hmem => hcrc g (List.mem_cons_of_mem _ hmem)) hgroups hgroups'
      rw [List.forall_mem_cons, ← hone, ← hrest, groupBytes]
      constructor
      · intro hall
        refine ⟨fun x hx => hall x (by omega), fun x hx => ?_⟩
        rw [Nat.add_assoc]
        exact hall _ (by omega)
      · rintro ⟨hone, hrest⟩ x hx
        by_cases hin : x < f.slots * 32
        · exact hone x hin
        · have hback := hrest (x - f.slots * 32) (by omega)
          rwa [Nat.add_assoc, Nat.add_sub_cancel' (by omega)] at hback

theorem groupBytes_of_keys (hf : ∀ f ∈ files, f.Storable)
    (hkeys : out.map FatFile.key = files.map FatFile.key) : groupBytes out = groupBytes files := by
  induction files generalizing out with
  | nil =>
    obtain rfl := List.map_eq_nil_iff.1 hkeys
    rfl
  | cons f files ih =>
    cases out with
    | nil => cases hkeys
    | cons g out =>
      obtain ⟨hkey, hkeys⟩ := List.cons.inj hkeys
      rw [groupBytes, groupBytes, slots_of_key (hf f List.mem_cons_self) hkey,
        ih (fun f hmem => hf f (List.mem_cons_of_mem _ hmem)) hkeys]

theorem storable_of_keys (hf : ∀ f ∈ files, f.Storable)
    (hkeys : out.map FatFile.key = files.map FatFile.key) : ∀ g ∈ out, g.Storable := by
  intro g hg
  have hmem : g.key ∈ files.map FatFile.key := hkeys ▸ List.mem_map_of_mem hg
  obtain ⟨f, hmem, hkey⟩ := List.mem_map.1 hmem
  exact (hf f hmem).of_key hkey.symm

/-- Encoding the files read back fills the same bytes of a buffer, with the same contents exactly if
the checksums are 0. -/
theorem encode_again (b₀ : Buffer) (hf : ∀ f ∈ files, f.Storable)
    (hkeys : out.map FatFile.key = files.map FatFile.key) (hcrc : ∀ g ∈ out, g.crc = 0)
    (h : Groups b 0 files) (hroom : groupBytes files ≤ b₀.size) :
    ∃ b', fatSyncLoop 0 out b₀ = .ok (groupBytes files, b') ∧ b'.size = b₀.size ∧
      (∀ x, groupBytes files ≤ x → b'.byte x = b₀.byte x) ∧
      ((∀ x < groupBytes files, b'.byte x = b.byte x) ↔ ∀ f ∈ files, f.crc = 0) := by
  have hbytes := groupBytes_of_keys hf hkeys
  obtain ⟨b', hrun, hsize, hgroups, hkeep⟩ :=
    fatSyncLoop_ok b₀ 0 (storable_of_keys hf hkeys) (by omega)
  rw [Nat.zero_add, hbytes] at hrun hkeep
  have hagain := groups_again_iff hf hkeys hcrc h hgroups
  simp only [Nat.zero_add] at hagain
  exact ⟨b', hrun, hsize, fun x hx => hkeep x (Or.inr hx), hagain⟩

theorem Buffer.eq_of_byte (hsize : b'.size = b.size) (hbyte : ∀ x, b'.byte x = b.byte x) : b' = b := by
  obtain ⟨f, n⟩ := b
  obtain ⟨f', n'⟩ := b'
  obtain rfl : f' = f := funext hbyte
  obtain rfl : n' = n := hsize
  rfl

/-- The directory bytes are a fixed point exactly if the checksums are 0. -/
theorem reencodes_iff_crc {size : ℕ} (hv : ∀ f ∈ files, f.Valid)
    (hsize : groupBytes files + 32 ≤ size) (hcap : files.length ≤ cap) :
    Reencodes files size cap ↔ ∀ f ∈ files, f.crc = 0 := by
  have hs (f : FatFile) (hf : f ∈ files) : f.Storable := (hv f hf).storable
  obtain ⟨b, hrun, hsame, hgroups, hkeep⟩ :=
    fatSyncLoop_ok ⟨fun _ => 0, size⟩ 0 hs (by simp only; omega)
  obtain ⟨hwalk, hkeys⟩ := hgroups.walk hv (by rw [hsame]; simp only; omega)
    (hkeep _ (Or.inr le_rfl))
  have hparse := hwalk.parseEntry ((liveStarts_length_le b 0 files.length).trans hcap)
  obtain ⟨b', hrun', hsame', hkeep', hagain⟩ :=
    encode_again ⟨fun _ => 0, size⟩ hs hkeys (crc_of_parse hparse) hgroups
      (by simp only; omega)
  rw [Nat.zero_add] at hrun hkeep
  rw [← hagain]
  constructor
  · rintro ⟨de, b₁, out, h₁, hout, h₂⟩ x -
    rw [hrun] at h₁
    obtain ⟨rfl, rfl⟩ := Prod.mk.inj (Except.ok.inj h₁)
    rw [hparse] at hout
    obtain rfl := Except.ok.inj hout
    rw [hrun'] at h₂
    obtain ⟨-, rfl⟩ := Prod.mk.inj (Except.ok.inj h₂)
    rfl
  · intro hbytes
    obtain rfl : b' = b := by
      refine Buffer.eq_of_byte (hsame'.trans hsame.symm) fun x => ?_
      by_cases hin : x < groupBytes files
      · exact hbytes x hin
      · rw [hkeep' x (by omega), hkeep x (Or.inr (by omega))]
    exact ⟨_, b', _, hrun, hparse, hrun'⟩

/-- What a sync, and one of the files read back after it, write to the cluster. -/
theorem two_syncs {fat : FatInfo} (hv : ∀ f ∈ files, f.Valid) (hbps : 64 ≤ fat.bps)
    (hspc : 0 < fat.spc) (hcfs : fat.cfs < 4294967296) (hds : groupBytes files < fat.ds)
    (hlen : files.length ≤ FAT_LFN_MAX_LEN) (garbage garbage' : ℕ → Byte) (disk : Disk) :
    ∃ (b b' : Buffer) (out : List FatFile),
      fat.fatSync garbage files disk = .ok (0, fat.fatWriteDir disk 0 b.byte) ∧
      fat.fatParseDir (fat.fatWriteDir disk 0 b.byte) 0 = .ok out ∧
      fat.fatSync garbage' out (fat.fatWriteDir disk 0 b.byte) =
        .ok (0, fat.fatWriteDir (fat.fatWriteDir disk 0 b.byte) 0 b'.byte) ∧
      ((∀ x < fat.ds, b'.byte x = b.byte x) ↔ ∀ f ∈ files, f.crc = 0) := by
  have hs (f : FatFile) (hf : f ∈ files) : f.Storable := (hv f hf).storable
  have hfits : fat.Fits 0 files := Or.inr ⟨rfl, hds, hlen, fun f hf => (hv f hf).strlen.2⟩
  have hroom (garbage : ℕ → Byte) : groupBytes files ≤ (fat.syncBuffer garbage).size := by
    simp only [FatInfo.syncBuffer]
    omega
  obtain ⟨b, hloop, -, hgroups, hkeep⟩ := fatSyncLoop_ok (fat.syncBuffer garbage) 0 hs
    (by rw [Nat.zero_add]; exact hroom garbage)
  have hrun : fat.fatSync garbage files disk = .ok (0, fat.fatWriteDir disk 0 b.byte) := by
    rw [FatInfo.fatSync, hloop, ok_bind]
  have hkeeps : fat.SyncKeeps 0 [] files garbage disk :=
    FatInfo.SyncKeeps.of_fits hbps hspc (by simpa using hcfs) hs (by simp) hfits
  obtain ⟨disk', hsync, ⟨out, hparse, hkeys⟩, -⟩ := hkeeps
  rw [hrun] at hsync
  obtain ⟨-, rfl⟩ := Prod.mk.inj (Except.ok.inj hsync)
  obtain ⟨b', hloop', -, hkeep', hagain⟩ :=
    encode_again (fat.syncBuffer garbage') hs hkeys (crc_of_parse hparse) hgroups
      (hroom garbage')
  refine ⟨b, b', out, hrun, hparse, ?_, ?_⟩
  · rw [FatInfo.fatSync, hloop', ok_bind]
  · rw [← hagain]
    constructor
    · exact fun h x hx => h x (by omega)
    · intro h x hx
      by_cases hin : x < groupBytes files
      · exact h x hin
      · rw [hkeep' x (by omega), hkeep x (by omega)]
        exact (if_pos hx).trans (if_pos hx).symm

/-- The cluster of a directory is a fixed point exactly if the checksums are 0. -/
theorem settles_iff_crc {fat : FatInfo} (hv : ∀ f ∈ files, f.Valid) (hbps : 64 ≤ fat.bps)
    (hspc : 0 < fat.spc) (hcfs : fat.cfs < 4294967296) (hds : groupBytes files < fat.ds)
    (hlen : files.length ≤ FAT_LFN_MAX_LEN) : fat.Settles files ↔ ∀ f ∈ files, f.crc = 0 := by
  constructor
  · intro h
    obtain ⟨b, b', out, hrun, hparse, hrun', hagain⟩ :=
      two_syncs hv hbps hspc hcfs hds hlen (fun _ => 0) (fun _ => 0) fun _ => 0
    obtain ⟨disk', out', h₁, h₂, h₃⟩ := h (fun _ => 0) (fun _ => 0) fun _ => 0
    rw [hrun] at h₁
    obtain ⟨-, rfl⟩ := Prod.mk.inj (Except.ok.inj h₁)
    rw [hparse] at h₂
    obtain rfl := Except.ok.inj h₂
    rw [hrun'] at h₃
    obtain ⟨-, hsame⟩ := Prod.mk.inj (Except.ok.inj h₃)
    refine hagain.1 fun x hx => ?_
    have hread (disk : Disk) (buf : ℕ → Byte) :
        (fat.fatReadDir (fat.fatWriteDir disk 0 buf) 0).byte x = buf x := by
      rw [FatInfo.byte_read_write _ _ hcfs, if_pos (by omega), Nat.zero_mul, Nat.zero_add]
    rw [← hread _ b'.byte, hsame, hread]
  · intro h garbage garbage' disk
    obtain ⟨b, b', out, hrun, hparse, hrun', hagain⟩ :=
      two_syncs hv hbps hspc hcfs hds hlen garbage garbage' disk
    have hsame : fat.fatWriteDir (fat.fatWriteDir disk 0 b.byte) 0 b'.byte =
        fat.fatWriteDir disk 0 b.byte := by
      funext y
      simp only [FatInfo.fatWriteDir, FatInfo.write]
      split_ifs with hin
      · have hds : fat.ds = fat.spc * fat.bps := Nat.mul_comm _ _
        rw [Nat.add_mul] at hin
        exact hagain.2 h _ (by omega)
      · rfl
    exact ⟨_, out, hrun, hparse, hrun'.trans (by rw [hsame])⟩

end YohdaOS.Fat
