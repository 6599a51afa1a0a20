import YohdaOS.Multiboot.Parse

/-!
# Boot information nobody checked

The parser goes from tag to tag and from entry to entry by sizes that it reads from them, and does
not look at the total size.  `TagWalk m ok tag n` says that from `tag` it gets over `n` tags to one at
which it stops, and that everything it reads on the way is `ok`.
-/

namespace YohdaOS.Multiboot

open ByteMem

/-- The reads of a tag, as addresses and bytes: a tag of an unknown type is left right away, the
entry size is read behind an entry only. -/
def MbTag.reads (t : MbTag) : List (ℕ × ℕ) :=
  if t.type > 21 then [(t.ptr, 4)]
  else (t.ptr, 8) :: (if t.entries = [] then [] else [(u32 (t.ptr + 8), 4)]) ++
    t.entries.map fun e => (e.ptr, 20)

/-- The reads of a call: none where the magic number or the alignment is refused. -/
def MbResult.reads (base : ℕ) (r : MbResult) : List (ℕ × ℕ) :=
  if r.ret = -1 ∨ r.ret = -2 then []
  else (base, 4) :: (r.last, 4) :: r.tags.flatMap MbTag.reads

/-- The `n` bytes at `a` are among the `total` bytes at `base`, and in the address space. -/
def Inside (base total a n : ℕ) : Prop :=
  base ≤ a ∧ a + n ≤ base + total ∧ a + n ≤ 4294967296

instance (base total a n : ℕ) : Decidable (Inside base total a n) :=
  inferInstanceAs (Decidable (_ ∧ _ ∧ _))

/-- The parser comes to an end and reads the announced bytes only. -/
def ParsesInside (m : Mem) (magic base : ℕ) : Prop :=
  ∃ fuel r, parseMultiboot m fuel magic base = some r ∧
    ∀ x ∈ r.reads base, Inside base (load32 m base) x.1 x.2

/-- The parser looks at no tag behind this one. -/
def Stops (m : Mem) (tag : ℕ) : Prop :=
  load32 m tag = MULTIBOOT_TAG_TYPE_END ∨ load32 m tag > 21

/-- The tag behind. -/
def following (m : Mem) (tag : ℕ) : ℕ := nextTag tag (load32 m (tag + 4))

/-- The `j`-th entry from `p` on, of `size` bytes each. -/
def entryAt (p size j : ℕ) : ℕ := u32 (p + j * size)

/-- `k` entries of `size` bytes from `p` on reach `bound`, and none before the last does. -/
structure EntryWalk (ok : ℕ → ℕ → Prop) (p bound size k : ℕ) : Prop where
  stop : bound ≤ entryAt p size k
  go : ∀ j < k, entryAt p size j < bound
  entry : ∀ j < k, ok (entryAt p size j) 20

/-- The entries of the memory map at `tag`. -/
def MapWalk (m : Mem) (ok : ℕ → ℕ → Prop) (tag : ℕ) : Prop :=
  ∃ k, EntryWalk ok (u32 (tag + 16)) (u32 (tag + load32 m (tag + 4))) (load32 m (u32 (tag + 8))) k ∧
    (0 < k → ok (u32 (tag + 8)) 4)

structure TagWalk (m : Mem) (ok : ℕ → ℕ → Prop) (tag n : ℕ) : Prop where
  stop : Stops m ((following m)^[n] tag)
  last : ok ((following m)^[n] tag) 4
  go : ∀ i < n, ¬Stops m ((following m)^[i] tag)
  inside : ∀ i < n, ok ((following m)^[i] tag) 8
  map : ∀ i < n, load32 m ((following m)^[i] tag) = MULTIBOOT_TAG_TYPE_MMAP →
    MapWalk m ok ((following m)^[i] tag)

variable {m : Mem} {ok : ℕ → ℕ → Prop} {p bound size tag n k fuel base : ℕ} {es : List MmapEntry}
  {r : MbResult}

/-! ## The entries -/

theorem entryAt_zero (hp : p < 4294967296) : entryAt p size 0 = p := by
  rw [entryAt, Nat.zero_mul, Nat.add_zero, u32_of_lt hp]

theorem entryAt_succ (p size j : ℕ) : entryAt (u32 (p + size)) size j = entryAt p size (j + 1) := by
  simp only [entryAt, u32, Nat.mod_add_mod, Nat.succ_mul]
  congr 1
  omega

theorem EntryWalk.cons (h : EntryWalk ok (u32 (p + size)) bound size k) (hp : p < 4294967296)
    (hlt : p < bound) (hok : ok p 20) : EntryWalk ok p bound size (k + 1) where
  stop := by
    rw [← entryAt_succ]
    exact h.stop
  go := fun j hj => by
    cases j with
    | zero => rwa [entryAt_zero hp]
    | succ j =>
      rw [← entryAt_succ]
      exact h.go j (by omega)
  entry := fun j hj => by
    cases j with
    | zero => rwa [entryAt_zero hp]
    | succ j =>
      rw [← entryAt_succ]
      exact h.entry j (by omega)

theorem EntryWalk.tail (h : EntryWalk ok p bound size (k + 1)) :
    EntryWalk ok (u32 (p + size)) bound size k where
  stop := by
    rw [entryAt_succ]
    exact h.stop
  go := fun j hj => by
    rw [entryAt_succ]
    exact h.go (j + 1) (by omega)
  entry := fun j hj => by
    rw [entryAt_succ]
    exact h.entry (j + 1) (by omega)

/-- The loop over the entries ends when they reach the bound. -/
theorem EntryWalk.loop (h : EntryWalk ok p bound size k) (hp : p < 4294967296) (hfuel : k < fuel) :
    ∃ es, mmapLoop m bound size fuel p = some es ∧ es.length = k ∧ ∀ e ∈ es, ok e.ptr 20 := by
  induction k generalizing p fuel with
  | zero =>
    obtain ⟨fuel, rfl⟩ := Nat.exists_eq_succ_of_ne_zero hfuel.ne'
    have hstop := h.stop
    rw [entryAt_zero hp] at hstop
    refine ⟨[], ?_, rfl, by simp⟩
    rw [mmapLoop, if_neg (not_lt.2 hstop)]
  | succ k ih =>
    obtain ⟨fuel, rfl⟩ := Nat.exists_eq_succ_of_ne_zero (Nat.ne_zero_of_lt hfuel)
    have hlt := h.go 0 (by omega)
    have hentry := h.entry 0 (by omega)
    rw [entryAt_zero hp] at hlt hentry
    obtain ⟨es, hes, hlen, hok⟩ := ih h.tail (Nat.mod_lt _ (by decide)) (show k < fuel by omega)
    refine ⟨readEntry m p :: es, ?_, by rw [List.length_cons, hlen], ?_⟩
    · rw [mmapLoop, if_pos hlt, hes]
      rfl
    · intro e he
      rcases List.mem_cons.1 he with rfl | he
      · exact hentry
      · exact hok e he

theorem entryWalk_of_loop (hp : p < 4294967296) (h : mmapLoop m bound size fuel p = some es)
    (hok : ∀ e ∈ es, ok e.ptr 20) : EntryWalk ok p bound size es.length := by
  induction fuel generalizing p es with
  | zero => cases h
  | succ fuel ih =>
    rw [mmapLoop] at h
    by_cases hlt : p < bound
    · rw [if_pos hlt, Option.map_eq_some_iff] at h
      obtain ⟨es, hes, rfl⟩ := h
      have hrest := ih (Nat.mod_lt _ (by decide)) hes fun e he => hok e (List.mem_cons_of_mem _ he)
      exact hrest.cons hp hlt (hok _ List.mem_cons_self)
    · rw [if_neg hlt] at h
      obtain rfl := Option.some.inj h
      refine ⟨?_, by simp, by simp⟩
      rw [List.length_nil, entryAt_zero hp]
      exact not_lt.1 hlt

/-! ## The tags -/

theorem TagWalk.cons (h : TagWalk m ok (following m tag) n) (hgo : ¬Stops m tag) (htag : ok tag 8)
    (hmap : load32 m tag = MULTIBOOT_TAG_TYPE_MMAP → MapWalk m ok tag) : TagWalk m ok tag (n + 1) where
  stop := h.stop
  last := h.last
  go := fun i hi => by
    cases i with
    | zero => exact hgo
    | succ i => exact h.go i (by omega)
  inside := fun i hi => by
    cases i with
    | zero => exact htag
    | succ i => exact h.inside i (by omega)
  map := fun i hi => by
    cases i with
    | zero => exact hmap
    | succ i => exact h.map i (by omega)

theorem TagWalk.tail (h : TagWalk m ok tag (n + 1)) : TagWalk m ok (following m tag) n where
  stop := h.stop
  last := h.last
  go := fun i hi => h.go (i + 1) (by omega)
  inside := fun i hi => h.inside (i + 1) (by omega)
  map := fun i hi => h.map (i + 1) (by omega)

/-- Everything the walk over the tags reads is `ok`. -/
def MbResult.ReadsOk (ok : ℕ → ℕ → Prop) (r : MbResult) : Prop :=
  ok r.last 4 ∧ ∀ x ∈ r.tags.flatMap MbTag.reads, ok x.1 x.2

theorem readsOk_visit {t : MbTag} :
    (r.visit t).ReadsOk ok ↔ (∀ x ∈ t.reads, ok x.1 x.2) ∧ r.ReadsOk ok := by
  simp only [MbResult.ReadsOk, MbResult.visit, List.flatMap_cons, List.forall_mem_append]
  tauto

/-- A stop reads the type of its tag. -/
theorem tagLoop_stop (ok : ℕ → ℕ → Prop) (fuel : ℕ) (hstop : Stops m tag) :
    ∃ r, tagLoop m (fuel + 1) tag = some r ∧ (r.ret = 0 ∨ r.ret = -5) ∧
      (r.ReadsOk ok ↔ ok tag 4) := by
  rw [tagLoop]
  by_cases hend : load32 m tag = MULTIBOOT_TAG_TYPE_END
  · rw [if_pos hend]
    refine ⟨_, rfl, Or.inl rfl, ?_⟩
    simp [MbResult.ReadsOk]
  · have hbig : load32 m tag > 21 := hstop.resolve_left hend
    have hmap : load32 m tag ≠ MULTIBOOT_TAG_TYPE_MMAP := by
      rw [MULTIBOOT_TAG_TYPE_MMAP]
      omega
    rw [if_neg hend, if_neg hmap, if_pos hbig]
    refine ⟨_, rfl, Or.inr rfl, ?_⟩
    simp [MbResult.ReadsOk, MbTag.reads, hbig]

/-- What is read at a tag that is not a stop. -/
theorem forall_reads {t : MbTag} (ht : ¬t.type > 21) :
    (∀ x ∈ t.reads, ok x.1 x.2) ↔
      ok t.ptr 8 ∧ (t.entries ≠ [] → ok (u32 (t.ptr + 8)) 4) ∧ ∀ e ∈ t.entries, ok e.ptr 20 := by
  rw [MbTag.reads, if_neg ht]
  by_cases hnil : t.entries = []
  · simp [hnil]
  · simp [hnil]

/-- One round of the loop at a tag that is not a stop: the entries of a memory map, then the rest. -/
theorem tagLoop_go (hgo : ¬Stops m tag) : tagLoop m (fuel + 1) tag =
    (if load32 m tag = MULTIBOOT_TAG_TYPE_MMAP then
      mmapLoop m (u32 (tag + load32 m (tag + 4))) (load32 m (u32 (tag + 8))) fuel (u32 (tag + 16))
    else some []).bind fun es =>
      (tagLoop m fuel (following m tag)).map (MbResult.visit ⟨tag, load32 m tag, es⟩) := by
  rw [Stops, not_or] at hgo
  rw [tagLoop]
  simp only [if_neg hgo.1, if_neg hgo.2]
  split_ifs
  · cases mmapLoop m (u32 (tag + load32 m (tag + 4))) (load32 m (u32 (tag + 8))) fuel
      (u32 (tag + 16)) <;> rfl
  · rfl

/-- The loop over the tags ends at the end of a walk. -/
theorem TagWalk.loop (h : TagWalk m ok tag n) :
    ∃ fuel₀, ∀ fuel, fuel₀ < fuel →
      ∃ r, tagLoop m fuel tag = some r ∧ (r.ret = 0 ∨ r.ret = -5) ∧ r.ReadsOk ok := by
  induction n generalizing tag with
  | zero =>
    refine ⟨0, fun fuel hfuel => ?_⟩
    obtain ⟨fuel, rfl⟩ := Nat.exists_eq_succ_of_ne_zero hfuel.ne'
    obtain ⟨r, hr, hret, hok⟩ := tagLoop_stop ok fuel h.stop
    exact ⟨r, hr, hret, hok.2 h.last⟩
  | succ n ih =>
    obtain ⟨fuel₀, hrest⟩ := ih h.tail
    have hgo : ¬Stops m tag := h.go 0 (by omega)
    have htag : ok tag 8 := h.inside 0 (by omega)
    have hbig : ¬load32 m tag > 21 := fun hb => hgo (Or.inr hb)
    by_cases hmap : load32 m tag = MULTIBOOT_TAG_TYPE_MMAP
    · obtain ⟨k, hk, hsize⟩ : MapWalk m ok tag := h.map 0 (by omega) hmap
      refine ⟨fuel₀ + k + 1, fun fuel hfuel => ?_⟩
      obtain ⟨fuel, rfl⟩ := Nat.exists_eq_succ_of_ne_zero (Nat.ne_zero_of_lt hfuel)
      obtain ⟨es, hes, hlen, hentries⟩ :=
        hk.loop (m := m) (Nat.mod_lt _ (by decide)) (show k < fuel by omega)
      obtain ⟨r, hr, hret, hok⟩ := hrest fuel (by omega)
      refine ⟨r.visit ⟨tag, load32 m tag, es⟩, ?_, hret, readsOk_visit.2 ⟨?_, hok⟩⟩
      · rw [tagLoop_go hgo, if_pos hmap, hes, hr]
        rfl
      · refine (forall_reads hbig).2 ⟨htag, fun hne => hsize ?_, hentries⟩
        rw [← hlen]
        exact List.length_pos_of_ne_nil hne
    · refine ⟨fuel₀ + 1, fun fuel hfuel => ?_⟩
      obtain ⟨fuel, rfl⟩ := Nat.exists_eq_succ_of_ne_zero (Nat.ne_zero_of_lt hfuel)
      obtain ⟨r, hr, hret, hok⟩ := hrest fuel (by omega)
      refine ⟨r.visit ⟨tag, load32 m tag, []⟩, ?_, hret, readsOk_visit.2 ⟨?_, hok⟩⟩
      · rw [tagLoop_go hgo, if_neg hmap, hr]
        rfl
      · exact (forall_reads hbig).2 ⟨htag, fun hne => absurd rfl hne, by simp⟩

theorem tagWalk_of_loop (h : tagLoop m fuel tag = some r) (hok : r.ReadsOk ok) :
    (r.ret = 0 ∨ r.ret = -5) ∧ ∃ n, TagWalk m ok tag n := by
  induction fuel generalizing tag r with
  | zero => cases h
  | succ fuel ih =>
    by_cases hstop : Stops m tag
    · obtain ⟨r', hr', hret, hiff⟩ := tagLoop_stop ok fuel hstop
      obtain rfl := Option.some.inj (h.symm.trans hr')
      exact ⟨hret, 0, hstop, hiff.1 hok, by simp, by simp, by simp⟩
    · rw [tagLoop_go hstop, Option.bind_eq_some_iff] at h
      obtain ⟨es, hes, h⟩ := h
      rw [Option.map_eq_some_iff] at h
      obtain ⟨r, hr, rfl⟩ := h
      have hbig : ¬load32 m tag > 21 := fun hb => hstop (Or.inr hb)
      obtain ⟨hvisit, hok⟩ := readsOk_visit.1 hok
      obtain ⟨htag, hsize, hentries⟩ := (forall_reads hbig).1 hvisit
      obtain ⟨hret, n, hn⟩ := ih hr hok
      refine ⟨hret, n + 1, hn.cons hstop htag fun hmap => ?_⟩
      rw [if_pos hmap] at hes
      refine ⟨es.length, entryWalk_of_loop (Nat.mod_lt _ (by decide)) hes hentries, fun hpos => ?_⟩
      exact hsize (List.ne_nil_of_length_pos hpos)

/-- A loop that ends has gone over a walk, wherever that is. -/
theorem tagWalk_of_some (h : tagLoop m fuel tag = some r) :
    (r.ret = 0 ∨ r.ret = -5) ∧ ∃ n, TagWalk m (fun _ _ => True) tag n :=
  tagWalk_of_loop h (by simp [MbResult.ReadsOk])

/-! ## The parser -/

theorem parsesInside_of_refused {magic : ℕ}
    (h : magic ≠ MULTIBOOT2_BOOTLOADER_MAGIC ∨ base &&& 7 ≠ 0) : ParsesInside m magic base := by
  by_cases hmagic : magic = MULTIBOOT2_BOOTLOADER_MAGIC
  · refine ⟨0, ⟨-2, [], base⟩, ?_, by simp [MbResult.reads]⟩
    rw [parseMultiboot, if_neg (not_not.2 hmagic), if_pos (h.resolve_left (not_not.2 hmagic))]
  · refine ⟨0, ⟨-1, [], base⟩, ?_, by simp [MbResult.reads]⟩
    rw [parseMultiboot, if_pos hmagic]

/-- The first tag is in the block only if the total size is, too. -/
theorem inside_total {total a : ℕ} (hbase : base < 4294967296) (ha : a = u32 (base + 8))
    (h : Inside base total a 4) : Inside base total base 4 := by
  obtain ⟨hlo, hhi⟩ := h
  rw [ha, u32] at hlo hhi
  refine ⟨le_rfl, ?_, ?_⟩ <;> omega

/-- The parser reads the announced bytes only and ends, on a block whose magic number and alignment
it accepts, exactly when the sizes of the tags and of the entries lead to a tag at which it stops and
every tag and entry on the way is inside. -/
theorem parse_inside_iff (m : Mem) (magic base : ℕ) (hbase : base < 4294967296) :
    ParsesInside m magic base ↔
      magic ≠ MULTIBOOT2_BOOTLOADER_MAGIC ∨ base &&& 7 ≠ 0 ∨
        ∃ n, TagWalk m (Inside base (load32 m base)) (u32 (base + 8)) n := by
  by_cases hmagic : magic = MULTIBOOT2_BOOTLOADER_MAGIC
  swap
  · exact iff_of_true (parsesInside_of_refused (Or.inl hmagic)) (Or.inl hmagic)
  by_cases halign : base &&& 7 = 0
  swap
  · exact iff_of_true (parsesInside_of_refused (Or.inr halign)) (Or.inr (Or.inl halign))
  have hparse (fuel : ℕ) : parseMultiboot m fuel magic base = tagLoop m fuel (u32 (base + 8)) := by
    rw [parseMultiboot, if_neg (not_not.2 hmagic), if_neg (not_not.2 halign)]
  have hreads {r : MbResult} (hret : r.ret = 0 ∨ r.ret = -5) :
      (∀ x ∈ r.reads base, Inside base (load32 m base) x.1 x.2) ↔
        Inside base (load32 m base) base 4 ∧ r.ReadsOk (Inside base (load32 m base)) := by
    rw [MbResult.reads, if_neg (by omega)]
    simp only [List.forall_mem_cons, MbResult.ReadsOk]
  simp only [hmagic, halign, ne_eq, not_true_eq_false, false_or]
  rw [← hmagic]
  constructor
  · rintro ⟨fuel, r, hr, hin⟩
    rw [hparse] at hr
    have hret := (tagWalk_of_some hr).1
    exact (tagWalk_of_loop hr ((hreads hret).1 hin).2).2
  · rintro ⟨n, hn⟩
    obtain ⟨fuel, hfuel⟩ := hn.loop
    obtain ⟨r, hr, hret, hok⟩ := hfuel (fuel + 1) (Nat.lt_succ_self fuel)
    have hfirst : Inside base (load32 m base) (u32 (base + 8)) 4 := by
      cases n with
      | zero => exact hn.last
      | succ n =>
        have h8 : Inside base (load32 m base) (u32 (base + 8)) 8 := hn.inside 0 (by omega)
        rw [Inside] at h8 ⊢
        omega
    exact ⟨fuel + 1, r, by rw [hparse, hr], (hreads hret).2 ⟨inside_total hbase rfl hfirst, hok⟩⟩

/-- A block of 56 bytes at 0x9000: a memory map of one entry, and the end tag. -/
def oneEntry : Mem := ⟨fun a => if a = 0x9000 then 56 else if a = 0x9008 then 6
  else if a = 0x900C then 40 else if a = 0x9010 then 24 else 0⟩

theorem parse_inside_iff_oneEntry :
    ParsesInside oneEntry MULTIBOOT2_BOOTLOADER_MAGIC 0x9000 := by
  apply (parse_inside_iff oneEntry _ 0x9000 (by decide)).2
  refine Or.inr (Or.inr ⟨1, Or.inl (by decide), by decide, ?_, by decide, ?_⟩)
  · intro i hi
    obtain rfl : i = 0 := by omega
    exact not_or.2 ⟨by decide, by decide⟩
  · intro i hi _
    obtain rfl : i = 0 := by omega
    exact ⟨1, ⟨by decide, by decide, by decide⟩, by decide⟩

/-- A tag of size 0: the parser does not get past it. -/
theorem parse_inside_fails :
    ¬∀ (m : Mem) (base : ℕ), base < 4294967296 → ParsesInside m MULTIBOOT2_BOOTLOADER_MAGIC base := by
  intro hall
  obtain ⟨fuel, r, hr, -⟩ := hall ⟨fun a => if a = 0x9000 then 24 else if a = 0x9008 then 1 else 0⟩
    0x9000 (by decide)
  obtain ⟨-, n, hn⟩ : (r.ret = 0 ∨ r.ret = -5) ∧ ∃ n, TagWalk _ _ 0x9008 n := tagWalk_of_some hr
  have hstay : following ⟨fun a => if a = 0x9000 then 24 else if a = 0x9008 then 1 else 0⟩ 0x9008 =
      0x9008 := by decide
  have hstop := hn.stop
  rw [Function.iterate_fixed hstay] at hstop
  exact absurd hstop (not_or.2 ⟨by decide, by decide⟩)

end YohdaOS.Multiboot
