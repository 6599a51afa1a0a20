import YohdaOS.Sched.Run

/-!
# Slots that are used again

`proc_exit` frees a slot of the process table and leaves the lists alone; `proc_create` takes the
first free slot and queues its node.  That goes well for any number of creations exactly when no
free slot is linked into a list.
-/

namespace YohdaOS.P32

open Chains Runs

/-- The ready list is a ring of processes of the table, each on it once, and `readys` counts it. -/
def ReadySound (s : Kernel) : Prop :=
  ∃ R, ReadyRing s R ∧ R.Nodup ∧ s.scheduler.readys = R.length ∧
    ∀ p ∈ R, ∃ i < PROC_MAX, s.procAt i = p

/-- The ready list is sound, and the slot that `proc_create` would take is on no list. -/
def SlotSafe (s : Kernel) : Prop :=
  ReadySound s ∧ ∀ i, procFindFree s = some i → ¬Linked s (s.procAt i)

/-- The creations of processes with these entry points, one after another. -/
def createAll (s : Kernel) (entryPoints : List ℕ) : Kernel :=
  entryPoints.foldl (fun s e => (procCreate s e).2) s

/-- The slots that are free are on no list. -/
def FreeUnlinked (s : Kernel) : Prop :=
  ∀ i < PROC_MAX, (s.blk (s.procAt i)).state = .free → ¬Linked s (s.procAt i)

variable {g : Places} {s s' : Kernel} {R : List ℕ} {p i : ℕ} {tr : List Event}

theorem procAt_injective {j : ℕ} (h : s.procAt i = s.procAt j) : i = j := by
  unfold Kernel.procAt sizeofProcCtrlBlk at h
  omega

theorem At.ready_ne (h : At g s) (hi : i < PROC_MAX) :
    s.scheduler.readyList ≠ nodeOf (s.procAt i) ∧ s.scheduler.blockList ≠ nodeOf (s.procAt i) := by
  rw [h.ready, h.block]
  obtain ⟨hr, hb⟩ := Places.nodeOf_ne (h.procAt_mem hi)
  exact ⟨hr.symm, hb.symm⟩

/-! ## One creation -/

/-- The slot that is taken is free, and every slot before it is in use. -/
theorem procFindFree_first (h : procFindFree s = some i) :
    i < PROC_MAX ∧ (s.blk (s.procAt i)).state = .free ∧
      ∀ j < i, (s.blk (s.procAt j)).state ≠ .free := by
  obtain ⟨hfree, A, C, hrange, hA⟩ := List.find?_eq_some_iff_append.1 h
  refine ⟨List.mem_range.1 (List.mem_of_find?_eq_some h), by simpa using hfree, fun j hj => ?_⟩
  have hlen : A.length = i := by
    have hget := congrArg (fun l => l[A.length]?) hrange
    rw [List.getElem?_append_right (le_refl _), Nat.sub_self, List.getElem?_cons_zero] at hget
    obtain ⟨hlt, heq⟩ := List.getElem?_eq_some_iff.1 hget
    simpa using heq
  have hmem : j ∈ A := by
    have hj' : (List.range PROC_MAX)[j]? = some j := by
      rw [List.getElem?_range (hj.trans (List.mem_range.1 (List.mem_of_find?_eq_some h)))]
    rw [hrange, List.getElem?_append_left (by omega)] at hj'
    exact List.mem_of_getElem? hj'
  simpa using hA j hmem

/-- What a creation on slot `i` does to a sound ready list. -/
theorem fill_ready (h : At g s) (hi : i < PROC_MAX) (hR : ReadyRing s R)
    (hreadys : s.scheduler.readys = R.length) (hprocs : ∀ p ∈ R, p ∈ g.procs)
    (hun : s.procAt i ∉ R) (entryPoint : ℕ) :
    let t := _schedAddReady (procFill s i entryPoint) (s.procAt i)
    ReadyRing t (R ++ [s.procAt i]) ∧ t.scheduler.readys = (R ++ [s.procAt i]).length ∧
      t.links.next = Function.update
        (Function.update s.links.next (nodeOf (s.procAt i)) s.scheduler.readyList)
        (s.links.prev s.scheduler.readyList) (nodeOf (s.procAt i)) := by
  intro t
  have hz : 0 ∉ s.scheduler.readyList :: R.map nodeOf := by
    rw [List.mem_cons, not_or, h.ready]
    refine ⟨g.ready_pos.ne, fun hmem => ?_⟩
    obtain ⟨p, -, hp⟩ := List.mem_map.1 hmem
    simp [nodeOf] at hp
  have hne := (h.ready_ne hi).1
  have hlinks : t.links = ⟨Function.update
        (Function.update s.links.next (nodeOf (s.procAt i)) s.scheduler.readyList)
        (s.links.prev s.scheduler.readyList) (nodeOf (s.procAt i)), Function.update
        (Function.update s.links.prev (nodeOf (s.procAt i)) (s.links.prev s.scheduler.readyList))
        s.scheduler.readyList (nodeOf (s.procAt i))⟩ := by
    rw [← listAdd_links (List.ne_of_not_mem_cons hz).symm (by simp [nodeOf]) hne.symm,
      ← P32.listAdd_eq hR hz]
    rfl
  have hlen : R.length ≤ 128 :=
    Places.length_le hprocs (List.nodup_cons.1 hR.nodup).2.of_map
  refine ⟨?_, ?_, by rw [hlinks]⟩
  · rw [ReadyRing, hlinks, List.map_append, List.map_singleton]
    apply hR.add
    rw [List.mem_cons, not_or, List.mem_map_of_injective nodeOf_injective]
    exact ⟨hne.symm, hun⟩
  · rw [List.length_append]
    exact (congrArg (fun n => u32 (n + 1)) hreadys).trans (u32_of_lt (by omega))

theorem ReadyRing.onReady_iff (h : At g s) (hR : ReadyRing s R) (hi : i < PROC_MAX) :
    OnReady s (s.procAt i) ↔ s.procAt i ∈ R := by
  rw [OnReady, hR.reach_iff, List.mem_cons, List.mem_map_of_injective nodeOf_injective]
  exact or_iff_right (h.ready_ne hi).1.symm

/-- What a creation on slot `i`, which is on no list, keeps. -/
structure Created (g : Places) (s t : Kernel) (i : ℕ) : Prop where
  places : At g t
  procAt : ∀ j, t.procAt j = s.procAt j
  ready : ReadySound t
  linked : ∀ j < PROC_MAX, j ≠ i → (Linked t (s.procAt j) ↔ Linked s (s.procAt j))
  state : (t.blk (s.procAt i)).state = .ready
  blk : ∀ j ≠ i, t.blk (s.procAt j) = s.blk (s.procAt j)

theorem SlotSafe.create (h : At g s) (hs : SlotSafe s) (hi : procFindFree s = some i)
    (entryPoint : ℕ) : Created g s (procCreate s entryPoint).2 i := by
  obtain ⟨⟨R, hR, -, hreadys, hprocs⟩, hun⟩ := hs
  have hun := hun i hi
  obtain ⟨hlt, hfree, -⟩ := procFindFree_first hi
  have hmem : s.procAt i ∈ g.procs := h.procAt_mem hlt
  have hprocs' : ∀ p ∈ R, p ∈ g.procs := by
    intro p hp
    obtain ⟨j, hj, rfl⟩ := hprocs p hp
    exact h.procAt_mem hj
  have hnot : s.procAt i ∉ R := fun hp => hun (Or.inl ((hR.onReady_iff h hlt).2 hp))
  rw [procCreate_some h hi hmem]
  obtain ⟨hring, hcount, hnext⟩ := fill_ready h hlt hR hreadys hprocs' hnot entryPoint
  generalize ht : _schedAddReady (procFill s i entryPoint) (s.procAt i) = t at hring hcount hnext ⊢
  have hplaces : At g t := ht ▸ (h.procFill i entryPoint).of_eq rfl rfl rfl rfl rfl
  have hat (j : ℕ) : t.procAt j = s.procAt j := by
    rw [Kernel.procAt, Kernel.procAt, hplaces.table, h.table]
  have hblk (q : ℕ) : t.blk q = (procFill s i entryPoint).blk q := by rw [← ht]; rfl
  have hlast := hR.next_prev_head
  have hnodup := (List.nodup_cons.1 hring.nodup).2.of_map
  refine ⟨hplaces, hat, ⟨_, hring, hnodup, hcount, ?_⟩, ?_, ?_, ?_⟩
  · intro p hp
    rw [List.mem_append, List.mem_singleton] at hp
    rcases hp with hp | rfl
    · obtain ⟨j, hj, hjp⟩ := hprocs p hp
      exact ⟨j, hj, (hat j).trans hjp⟩
    · exact ⟨i, hlt, hat i⟩
  · intro j hj hji
    have hne : nodeOf (s.procAt j) ≠ nodeOf (s.procAt i) :=
      fun heq => hji (procAt_injective (nodeOf_injective heq))
    obtain ⟨hr, hb⟩ := h.ready_ne hlt
    have hiff (k : ℕ) (hk : k ≠ nodeOf (s.procAt i))
        (hkn : ¬Reach s.links.next k (nodeOf (s.procAt i))) :
        Reach t.links.next k (nodeOf (s.procAt j)) ↔ Reach s.links.next k (nodeOf (s.procAt j)) := by
      rw [hnext]
      constructor
      · exact fun hy => (Reach.of_add hlast hk hkn hy).resolve_left hne
      · exact fun hy => Reach.add hlast hk hkn hy
    unfold Linked OnReady OnBlock
    rw [hplaces.ready, ← h.ready, hplaces.block, ← h.block]
    exact or_congr (hiff _ hr fun hn => hun (Or.inl hn)) (hiff _ hb fun hn => hun (Or.inr hn))
  · rw [hblk]
    exact procFill_state s i entryPoint
  · intro j hj
    rw [hblk]
    exact procFill_of_ne s i entryPoint fun heq => hj (procAt_injective heq)

/-! ## Any number of creations -/

theorem createAll_safe (h : At g s) (hR : ReadySound s) (hfree : FreeUnlinked s)
    (entryPoints : List ℕ) : SlotSafe (createAll s entryPoints) := by
  induction entryPoints generalizing s with
  | nil =>
    refine ⟨hR, fun i hi => ?_⟩
    obtain ⟨hlt, hst, -⟩ := procFindFree_first hi
    exact hfree i hlt hst
  | cons e es ih =>
    have hsafe : SlotSafe s := by
      refine ⟨hR, fun i hi => ?_⟩
      obtain ⟨hlt, hst, -⟩ := procFindFree_first hi
      exact hfree i hlt hst
    rw [createAll, List.foldl_cons]
    cases hi : procFindFree s with
    | none =>
      rw [procCreate_none hi]
      exact ih h hR hfree
    | some i =>
      have hc := hsafe.create h hi e
      apply ih hc.places hc.ready
      intro j hj hst
      rw [hc.procAt] at hst ⊢
      have hji : j ≠ i := by
        rintro rfl
        rw [hc.state] at hst
        cases hst
      rw [hc.linked j hj hji]
      exact hfree j hj (by rwa [hc.blk j hji] at hst)

theorem procFindFree_le {j : ℕ} (hj : j < PROC_MAX) (hst : (s.blk (s.procAt j)).state = .free) :
    ∃ i, procFindFree s = some i ∧ i ≤ j := by
  cases hi : procFindFree s with
  | none =>
    have hnone := List.find?_eq_none.1 hi j (List.mem_range.2 hj)
    simp [hst] at hnone
  | some i =>
    obtain ⟨-, -, hfirst⟩ := procFindFree_first hi
    exact ⟨i, rfl, not_lt.1 fun hlt => hfirst j hlt hst⟩

/-- With enough creations every slot that is free is reached. -/
theorem unlinked_of_safe {j : ℕ} (hj : j < PROC_MAX) (n : ℕ) (h : At g s)
    (hsafe : ∀ es, SlotSafe (createAll s es)) (hst : (s.blk (s.procAt j)).state = .free)
    (hn : ∀ k, (s.blk (s.procAt k)).state = .free → j ≤ k + n) : ¬Linked s (s.procAt j) := by
  induction n generalizing s with
  | zero =>
    obtain ⟨i, hi, hij⟩ := procFindFree_le hj hst
    obtain rfl : i = j := le_antisymm hij (hn i (procFindFree_first hi).2.1)
    exact (hsafe []).2 i hi
  | succ n ih =>
    obtain ⟨i, hi, hij⟩ := procFindFree_le hj hst
    obtain ⟨-, hifree, hfirst⟩ := procFindFree_first hi
    rcases eq_or_lt_of_le hij with rfl | hlt
    · exact (hsafe []).2 i hi
    have hc := SlotSafe.create h (hsafe []) hi 0
    have hji : j ≠ i := (Nat.ne_of_lt hlt).symm
    have hst' : ((procCreate s 0).2.blk ((procCreate s 0).2.procAt j)).state = .free := by
      rw [hc.procAt, hc.blk j hji, hst]
    have hn' : ∀ k, ((procCreate s 0).2.blk ((procCreate s 0).2.procAt k)).state = .free →
        j ≤ k + n := by
      intro k hk
      rw [hc.procAt] at hk
      have hki : k ≠ i := by
        rintro rfl
        rw [hc.state] at hk
        cases hk
      rw [hc.blk k hki] at hk
      have hik : i ≤ k := not_lt.1 fun hlt => hfirst k hlt hk
      have hfar := hn i hifree
      omega
    have hrest := ih hc.places (fun es => hsafe (0 :: es)) hst' hn'
    rwa [hc.procAt, hc.linked j hj hji] at hrest

/-! ## After `proc_exit` -/

theorem procExit_eq (h : At g s) (hi : i < PROC_MAX) :
    procExit s (s.procAt i) = s.setState (s.procAt i) .free := by
  rw [procExit, if_neg (Places.ne_zero (h.procAt_mem hi))]

/-- However many processes are created after a `proc_exit`, the ready list stays sound and every
slot that is taken is on no list, exactly when the ready list was sound and neither the process nor
any slot that was free is on a list. -/
theorem reuse_safe_iff (g : Places) (raw : Kernel) (stack : ℕ) (tr : List Event) (s : Kernel)
    (ht : Trace Step (bootKernel g raw stack) tr s) (i : ℕ) (hi : i < PROC_MAX) :
    (∀ es, SlotSafe (createAll (procExit s (s.procAt i)) es)) ↔
      ReadySound s ∧ ∀ j < PROC_MAX, j = i ∨ (s.blk (s.procAt j)).state = .free →
        ¬Linked s (s.procAt j) := by
  have h : At g s := (bootKernel_inv g raw stack).places.trace ht
  rw [procExit_eq h hi]
  have hplaces : At g (s.setState (s.procAt i) .free) := h.of_eq rfl rfl rfl rfl rfl
  have hfree (j : ℕ) : ((s.setState (s.procAt i) .free).blk (s.procAt j)).state = .free ↔
      j = i ∨ (s.blk (s.procAt j)).state = .free := by
    by_cases hji : j = i
    · simp [hji, setState_self]
    · rw [setState_of_ne .free fun heq => hji (procAt_injective heq)]
      simp [hji]
  constructor
  · intro hsafe
    refine ⟨(hsafe []).1, fun j hj hst => ?_⟩
    have hun := unlinked_of_safe hj j hplaces hsafe ((hfree j).2 hst) fun k _ => by omega
    exact hun
  · rintro ⟨hR, hun⟩ es
    exact createAll_safe hplaces hR (fun j hj hst => hun j hj ((hfree j).1 hst)) es

/-- The running process exits. -/
theorem reuse_safe_main :
    let s := schedRound (sched (procCreate mainKernel 0xC0101000).2)
    ∀ es, SlotSafe (createAll (procExit s (s.procAt 0)) es) := by
  intro s
  have h₂ : SchedInv mainPlaces s [] [] := mainKernel_dispatched
  apply (reuse_safe_iff mainPlaces rawKernel 0xC2001000 [.create 0xC0110000, .start,
    .dispatch 0xC0110000] s ?_ 0 (by decide)).2
  · refine ⟨⟨[], h₂.readyRing, List.nodup_nil, h₂.readys, by simp⟩, fun j hj _ => ?_⟩
    rw [h₂.linked_iff (h₂.places.procAt_mem hj)]
    simp
  · apply Trace.cons (.create_of 0xC0101000 (by decide +kernel) (by decide +kernel))
    apply Trace.cons (.start (by decide +kernel))
    exact Trace.cons (.dispatch_of (by decide +kernel) (by decide +kernel) (by decide +kernel))
      (.nil s)

/-- A process that is queued exits and the next one takes its slot: the node leads to itself. -/
theorem reuse_safe_fails : ¬∀ g raw stack tr s, Trace Step (bootKernel g raw stack) tr s →
    ∀ i < PROC_MAX, ∀ es, SlotSafe (createAll (procExit s (s.procAt i)) es) := by
  intro hall
  let s := (procCreate mainKernel 0xC0101000).2
  obtain ⟨⟨R, hR, -⟩, -⟩ := hall mainPlaces rawKernel 0xC2001000 [.create 0xC0110000] s
    (Trace.cons (.create_of 0xC0101000 (by decide +kernel) (by decide +kernel)) (.nil s)) 0
    (by decide) [0xC0101040]
  have hnext : (createAll (procExit s (s.procAt 0)) [0xC0101040]).links.next 0xC2041000 =
      0xC0110014 := by decide +kernel
  have hself : (createAll (procExit s (s.procAt 0)) [0xC0101040]).links.next 0xC0110014 =
      0xC0110014 := by decide +kernel
  have hhead : (createAll (procExit s (s.procAt 0)) [0xC0101040]).scheduler.readyList =
      0xC2041000 := by decide +kernel
  rw [ReadyRing, hhead] at hR
  exact hR.next_head_ne hnext (by decide) hself

end YohdaOS.P32
