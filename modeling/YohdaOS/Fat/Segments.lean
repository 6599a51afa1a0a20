import YohdaOS.Fat.Walk

/-!
# Groups of directory entries

A directory is a sequence of groups: the long entries of a file and its short one, a short entry by
itself, or a deleted entry.  The code takes the length of a group from bit 0x40 of its first byte,
which means something in a long entry only.
-/

namespace YohdaOS.Fat

/-- `sfn_inval` -/
def sfnInval : List Byte :=
  [0x22, 0x2A, 0x2B, 0x2C, 0x2E, 0x2F, 0x3A, 0x3B, 0x3C, 0x3D, 0x3E, 0x3F, 0x5B, 0x5C, 0x5D, 0x7C]

inductive Group where
  /-- `n` long entries and their short one -/
  | long (n : ℕ)
  /-- a short entry whose name starts with `c` -/
  | short (c : Byte)
  | deleted
deriving DecidableEq

namespace Group

def slots : Group → ℕ
  | .long n => n + 1
  | .short _ => 1
  | .deleted => 1

/-- The first byte. -/
def first : Group → Byte
  | .long n => FAT_LAST_LONG_ENTRY ||| BitVec.ofNat 8 n
  | .short c => c
  | .deleted => 0xE5

/-- A long name has at most 255 characters, and a short one starts with a legal one. -/
def WellFormed : Group → Prop
  | .long n => 1 ≤ n ∧ n ≤ 20
  | .short c => 0x20 < c.toNat ∧ c ≠ 0xE5 ∧ c ∉ sfnInval
  | .deleted => True

instance : (g : Group) → Decidable g.WellFormed
  | .long _ => inferInstanceAs (Decidable (_ ∧ _))
  | .short _ => inferInstanceAs (Decidable (_ ∧ _ ∧ _))
  | .deleted => inferInstanceAs (Decidable True)

end Group

/-- Where group `i` starts. -/
def startOf (gs : List Group) (i : ℕ) : ℕ := FAT_ENTRY_SIZE * ((gs.take i).map Group.slots).sum

/-- The groups lie in the buffer one after another, and a zero entry ends them. -/
structure Image (b : Buffer) (gs : List Group) : Prop where
  first : ∀ i (h : i < gs.length), b.byte (startOf gs i) = gs[i].first
  last : b.byte (startOf gs gs.length) = 0
  inside : startOf gs gs.length + FAT_ENTRY_SIZE ≤ b.size

/-- The parser steps from group to group and returns a file for each that is not deleted. -/
def Segmented (b : Buffer) (gs : List Group) (cap : ℕ) : Prop :=
  (∀ i ≤ gs.length, (fatNext b)^[i] 0 = startOf gs i) ∧
    ∃ files, fatParseEntry b cap = .ok files ∧
      files.length = (gs.filter fun g => g ≠ .deleted).length

/-- A group whose length the code guesses right, and whose name fits the temporary. -/
def Group.Guessed : Group → Prop
  | .long n => n ≤ 19
  | .short c => c = 0x40
  | .deleted => False

variable {b : Buffer} {gs : List Group} {g : Group} {i cap : ℕ}

theorem fatGetOst_long : ∀ n < 64, fatGetOst (FAT_LAST_LONG_ENTRY ||| BitVec.ofNat 8 n) = n := by
  decide

theorem long_live : ∀ n < 21, ¬fatFree (FAT_LAST_LONG_ENTRY ||| BitVec.ofNat 8 n) ∧
    IsLong (FAT_LAST_LONG_ENTRY ||| BitVec.ofNat 8 n) := by
  decide

theorem fatGetOst_eq_zero : ∀ c : Byte, fatGetOst c = 0 → c = 0x40 := by
  decide

theorem Group.first_ne_zero (h : g.WellFormed) : g.first ≠ 0 := by
  cases g with
  | long n =>
    have hlive := (long_live n (by have := h.2; omega)).1
    exact fun h0 => hlive (Or.inl h0)
  | short c =>
    rintro rfl
    exact absurd h.1 (by decide)
  | deleted => decide

/-- The stride is the length of the group. -/
theorem Group.Guessed.slots (h : g.Guessed) : fatGetOst g.first + 1 = g.slots := by
  cases g with
  | long n =>
    have hn : n ≤ 19 := h
    exact congrArg (· + 1) (fatGetOst_long n (by omega))
  | short c =>
    obtain rfl : c = 0x40 := h
    rfl
  | deleted => cases h

theorem Group.Guessed.live (h : g.Guessed) : ¬fatFree g.first := by
  cases g with
  | long n =>
    have hn : n ≤ 19 := h
    exact (long_live n (by omega)).1
  | short c =>
    obtain rfl : c = 0x40 := h
    decide
  | deleted => cases h

theorem Group.Guessed.fits (h : g.Guessed) : fatGetOst g.first ≤ 19 := by
  have hslots := h.slots
  cases g with
  | long n =>
    have hn : n ≤ 19 := h
    simp only [Group.slots] at hslots
    omega
  | short c =>
    simp only [Group.slots] at hslots
    omega
  | deleted => cases h

namespace Image

theorem next (h : Image b gs) (hi : i < gs.length) :
    fatNext b (startOf gs i) = startOf gs i + (fatGetOst gs[i].first + 1) * FAT_ENTRY_SIZE := by
  rw [fatNext, h.first i hi]

theorem step (h : Image b gs) (hi : i < gs.length) :
    fatNext b (startOf gs i) = startOf gs (i + 1) ↔ fatGetOst gs[i].first + 1 = gs[i].slots := by
  rw [h.next hi, startOf, startOf, List.take_succ_eq_append_getElem hi, List.map_append,
    List.sum_append, FAT_ENTRY_SIZE]
  simp only [List.map_cons, List.map_nil, List.sum_cons, List.sum_nil]
  omega

/-- The walk over groups that are guessed right. -/
theorem starts (h : Image b gs) (hg : ∀ g ∈ gs, g.Guessed) (hi : i ≤ gs.length) :
    (fatNext b)^[i] 0 = startOf gs i := by
  induction i with
  | zero => simp [startOf]
  | succ i ih =>
    rw [Function.iterate_succ_apply', ih (by omega)]
    exact (h.step (by omega)).2 (hg _ (List.getElem_mem _)).slots

theorem walk (h : Image b gs) (hw : ∀ g ∈ gs, g.WellFormed)
    (hs : ∀ i ≤ gs.length, (fatNext b)^[i] 0 = startOf gs i)
    (hfits : ∀ g ∈ gs, ¬fatFree g.first → IsLong g.first → fatGetOst g.first ≤ 19) :
    Walk b 0 gs.length where
  inside := by
    have hin := h.inside
    rw [FAT_ENTRY_SIZE] at hin
    rw [hs _ le_rfl]
    omega
  stop := by
    rw [hs _ le_rfl]
    exact h.last
  go := fun i hi => by
    rw [hs i hi.le, h.first i hi]
    exact Group.first_ne_zero (hw _ (List.getElem_mem _))
  fits := fun i hi => by
    rw [hs i hi.le, h.first i hi]
    exact hfits _ (List.getElem_mem _)

end Image

/-- A group whose length is guessed right, and whose long entries fit the temporary. -/
theorem Group.guessed_of_slots (hw : g.WellFormed) (hslots : fatGetOst g.first + 1 = g.slots)
    (hfits : ¬fatFree g.first → IsLong g.first → fatGetOst g.first ≤ 19) : g.Guessed := by
  cases g with
  | long n =>
    obtain ⟨hlive, hlong⟩ := long_live n (by have := hw.2; omega)
    have host : fatGetOst (Group.long n).first = n := fatGetOst_long n (by have := hw.2; omega)
    have hle := hfits hlive hlong
    rw [host] at hle
    exact hle
  | short c => exact fatGetOst_eq_zero c (Nat.succ_inj.1 hslots)
  | deleted => exact absurd hslots (by decide)

theorem Image.walk_length (h : Image b gs) (hw : ∀ g ∈ gs, g.WellFormed)
    (hs : ∀ i ≤ gs.length, (fatNext b)^[i] 0 = startOf gs i) {m : ℕ} (hwalk : Walk b 0 m) :
    m = gs.length := by
  rcases lt_trichotomy m gs.length with hlt | heq | hlt
  · have hstop := hwalk.stop
    rw [hs m hlt.le, h.first m hlt] at hstop
    exact absurd hstop (Group.first_ne_zero (hw _ (List.getElem_mem _)))
  · exact heq
  · have hgo := hwalk.go gs.length hlt
    rw [hs _ le_rfl, h.last] at hgo
    exact absurd rfl hgo

theorem liveStarts_of_guessed (h : Image b gs) (hg : ∀ g ∈ gs, g.Guessed) :
    (liveStarts b 0 gs.length).length = gs.length := by
  unfold liveStarts
  rw [List.filter_eq_self.2, List.length_map, List.length_range]
  intro e he
  obtain ⟨i, hi, rfl⟩ := List.mem_map.1 he
  rw [List.mem_range] at hi
  rw [h.starts hg hi.le, h.first i hi]
  exact decide_eq_true (hg _ (List.getElem_mem _)).live

/-- On every well-formed image the parser keeps to the groups exactly when each of them is a long
group of at most 19 long entries or a short entry that starts with `@`. -/
theorem segments_iff (b : Buffer) (gs : List Group) (cap : ℕ) (hw : ∀ g ∈ gs, g.WellFormed)
    (hi : Image b gs) (hcap : gs.length ≤ cap) : Segmented b gs cap ↔ ∀ g ∈ gs, g.Guessed := by
  constructor
  · rintro ⟨hs, files, hparse, -⟩ g hg
    obtain ⟨i, hlt, rfl⟩ := List.mem_iff_getElem.1 hg
    obtain ⟨m, hwalk, -⟩ := walk_of_parse hparse (Nat.zero_le _)
    obtain rfl := hi.walk_length hw hs hwalk
    have hstep : fatNext b (startOf gs i) = startOf gs (i + 1) := by
      rw [← hs i hlt.le, ← hs (i + 1) hlt, Function.iterate_succ_apply']
    have hfits := hwalk.fits i hlt
    rw [hs i hlt.le, hi.first i hlt] at hfits
    exact Group.guessed_of_slots (hw _ hg) ((hi.step hlt).1 hstep) hfits
  · intro hg
    have hs (i : ℕ) (hle : i ≤ gs.length) : (fatNext b)^[i] 0 = startOf gs i := hi.starts hg hle
    have hwalk := hi.walk hw hs fun g hmem _ _ => (hg g hmem).fits
    have hlen := liveStarts_of_guessed hi hg
    refine ⟨hs, _, hwalk.parseEntry (by omega), ?_⟩
    have hall : (gs.filter fun g => g ≠ .deleted) = gs := by
      apply List.filter_eq_self.2
      intro g hmem
      have hguess := hg g hmem
      cases g with
      | deleted => cases hguess
      | long | short => rfl
    rw [hall, List.length_map, hlen]

/-- A long group, and a short entry that starts with `@`. -/
theorem segments_iff_at : Segmented
    ⟨fun i => if i = 0 then 0x41 else if i = 64 then 0x40 else 0, 128⟩ [.long 1, .short 0x40] 2 := by
  apply (segments_iff _ _ _ _ _ _).2
  · simp [Group.Guessed]
  · decide
  · exact ⟨by decide, by decide, by decide⟩
  · decide

/-- A short entry that starts with `B`: the parser goes on three slots behind it. -/
theorem segments_iff_fails : ¬∀ b gs cap, (∀ g ∈ gs, Group.WellFormed g) → Image b gs →
    gs.length ≤ cap → Segmented b gs cap := by
  intro hall
  obtain ⟨hs, -⟩ := hall ⟨fun i => if i = 0 then 0x42 else if i = 32 then 0x41 else 0, 128⟩
    [.short 0x42, .long 1] 2
    (by decide) ⟨by decide, by decide, by decide⟩ (by decide)
  exact absurd (hs 1 (by decide)) (by decide)

end YohdaOS.Fat
