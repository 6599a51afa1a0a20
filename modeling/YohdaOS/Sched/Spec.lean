import YohdaOS.Rings
import YohdaOS.Sched.Core

/-!
# What the scheduler's functions do to the two lists

`SchedInv g s R B` says that the processes `R` are queued on the ready list and the processes `B` on
the block list, none of them twice, and that `readys` counts the first.  The functions keep it as
long as a process that is queued was not queued before.
-/

namespace YohdaOS.P32

open Chains

/-- Where the process table and the two list heads are. -/
structure Places where
  table : ℕ
  ready : ℕ
  block : ℕ
  table_pos : 0 < table
  table_top : table + sizeofProcCtrlBlk * PROC_MAX ≤ 4294967296
  ready_pos : 0 < ready
  block_pos : 0 < block
  heads : ready ≠ block
  apart : ∀ i < PROC_MAX, nodeOf (table + sizeofProcCtrlBlk * i) ≠ ready ∧
    nodeOf (table + sizeofProcCtrlBlk * i) ≠ block

namespace Places

variable (g : Places)

/-- The process control blocks of the table. -/
def procs : List ℕ := (List.range PROC_MAX).map fun i => g.table + sizeofProcCtrlBlk * i

variable {g} {p : ℕ} {i : ℕ}

theorem mem_procs : p ∈ g.procs ↔ ∃ i < PROC_MAX, g.table + sizeofProcCtrlBlk * i = p := by
  simp [procs]

theorem procs_length : g.procs.length = 128 := by simp [procs, PROC_MAX]

theorem ne_zero (hp : p ∈ g.procs) : p ≠ 0 := by
  obtain ⟨i, -, rfl⟩ := mem_procs.1 hp
  have := g.table_pos
  omega

theorem nodeOf_ne (hp : p ∈ g.procs) : nodeOf p ≠ g.ready ∧ nodeOf p ≠ g.block := by
  obtain ⟨i, hi, rfl⟩ := mem_procs.1 hp
  exact g.apart i hi

theorem containerOf_nodeOf (hp : p ∈ g.procs) : containerOf (nodeOf p) = p := by
  obtain ⟨i, hi, rfl⟩ := mem_procs.1 hp
  have := g.table_top
  simp only [PROC_MAX, sizeofProcCtrlBlk, containerOf, nodeOf, toU32] at *
  omega

theorem length_le {R : List ℕ} (hR : ∀ p ∈ R, p ∈ g.procs) (hd : R.Nodup) : R.length ≤ 128 := by
  rw [← g.procs_length]
  exact (hd.subperm hR).length_le

end Places

theorem decr_succ {n : ℕ} (h : n < 4294967296) : decr (n + 1) = n := by
  unfold decr toU32
  omega

theorem nodeOf_injective : Function.Injective nodeOf := fun p q h => by
  unfold nodeOf at h
  omega

/-- The places are those of `g`, and both init functions have run. -/
structure At (g : Places) (s : Kernel) : Prop where
  table : s.procMgr.procTable = g.table
  procInited : s.procMgr.inited = true
  ready : s.scheduler.readyList = g.ready
  block : s.scheduler.blockList = g.block
  inited : s.scheduler.inited = true

structure SchedInv (g : Places) (s : Kernel) (R B : List ℕ) : Prop where
  places : At g s
  rings : Rings s.links g.ready g.block (R.map nodeOf) (B.map nodeOf)
  readys : s.scheduler.readys = R.length
  procs : ∀ p ∈ R ++ B, p ∈ g.procs

variable {g : Places} {s : Kernel} {R B A C : List ℕ} {p : ℕ}

@[simp] theorem setState_links (st : ProcState) : (s.setState p st).links = s.links := rfl

@[simp] theorem setState_scheduler (st : ProcState) :
    (s.setState p st).scheduler = s.scheduler := rfl

@[simp] theorem setState_procMgr (st : ProcState) : (s.setState p st).procMgr = s.procMgr := rfl

@[simp] theorem setState_control (st : ProcState) : (s.setState p st).control = s.control := rfl

theorem setState_self (st : ProcState) : ((s.setState p st).blk p).state = st := by
  simp [Kernel.setState]

theorem setState_of_ne (st : ProcState) {q : ℕ} (h : q ≠ p) :
    (s.setState p st).blk q = s.blk q := by
  simp [Kernel.setState, h]

/-! ## What the functions leave alone -/

theorem At.of_eq {s' : Kernel} (h : At g s) (hm : s'.procMgr.procTable = s.procMgr.procTable)
    (hi : s'.procMgr.inited = s.procMgr.inited)
    (hr : s'.scheduler.readyList = s.scheduler.readyList)
    (hb : s'.scheduler.blockList = s.scheduler.blockList)
    (hs : s'.scheduler.inited = s.scheduler.inited) : At g s' :=
  ⟨hm.trans h.table, hi.trans h.procInited, hr.trans h.ready, hb.trans h.block, hs.trans h.inited⟩

theorem schedAddReady_eq (h : At g s) (hp : p ≠ 0) : schedAddReady s p = _schedAddReady s p := by
  simp [schedAddReady, h.inited, hp]

theorem schedRequeue_eq (h : At g s) (hp : s.scheduler.proc ≠ 0) (st : ProcState) :
    schedRequeue st s = _schedAddReady (s.setState s.scheduler.proc st) s.scheduler.proc := by
  simp [schedRequeue, h.inited, hp]

theorem schedRequeue_null (hp : s.scheduler.proc = 0) (st : ProcState) : schedRequeue st s = s := by
  simp [schedRequeue, hp]

theorem schedYield_eq (h : At g s) (hp : s.scheduler.proc ≠ 0) :
    schedYield s = { schedRequeue .ready s with control := .loop } := by
  simp [schedYield, h.inited, hp]

theorem schedSleep_eq (h : At g s) (hp : s.scheduler.proc ≠ 0) :
    schedSleep s = schedAddBlock (s.setState s.scheduler.proc .block) s.scheduler.proc := by
  simp [schedSleep, h.inited, hp]

section procFill

variable (s) (i entryPoint : ℕ)

@[simp] theorem procFill_links : (procFill s i entryPoint).links = s.links := rfl

@[simp] theorem procFill_scheduler : (procFill s i entryPoint).scheduler = s.scheduler := rfl

@[simp] theorem procFill_control : (procFill s i entryPoint).control = s.control := rfl

theorem procFill_state : ((procFill s i entryPoint).blk (s.procAt i)).state = .ready := by
  simp [procFill]

theorem procFill_of_ne {q : ℕ} (h : q ≠ s.procAt i) :
    (procFill s i entryPoint).blk q = s.blk q := by
  simp [procFill, h]

end procFill

theorem At.procFill (h : At g s) (i entryPoint : ℕ) : At g (procFill s i entryPoint) :=
  h.of_eq rfl rfl rfl rfl rfl

theorem procCreate_some (h : At g s) {i : ℕ} (hi : procFindFree s = some i)
    (hp : s.procAt i ∈ g.procs) (entryPoint : ℕ) :
    procCreate s entryPoint =
      (s.procAt i, _schedAddReady (P32.procFill s i entryPoint) (s.procAt i)) := by
  rw [← schedAddReady_eq (h.procFill i entryPoint) (Places.ne_zero hp)]
  simp [procCreate, h.procInited, hi]

theorem procCreate_none (hi : procFindFree s = none) (entryPoint : ℕ) :
    (procCreate s entryPoint).2 = s := by
  unfold procCreate
  split_ifs <;> simp [hi]

theorem procFindFree_spec (h : At g s) {i : ℕ} (hi : procFindFree s = some i) :
    s.procAt i ∈ g.procs ∧ (s.blk (s.procAt i)).state = .free := by
  have hfree := List.find?_some hi
  have hmem := List.mem_range.1 (List.mem_of_find?_eq_some hi)
  refine ⟨?_, by simpa using hfree⟩
  rw [Kernel.procAt, h.table]
  exact Places.mem_procs.2 ⟨i, hmem, rfl⟩

/-! ## What they queue and unlink -/

namespace SchedInv

theorem mono {s' : Kernel} (h : SchedInv g s R B) (hp : At g s') (hl : s'.links = s.links)
    (hr : s'.scheduler.readys = s.scheduler.readys) : SchedInv g s' R B :=
  ⟨hp, hl ▸ h.rings, hr.trans h.readys, h.procs⟩

theorem setState (h : SchedInv g s R B) (q : ℕ) (st : ProcState) :
    SchedInv g (s.setState q st) R B := h.mono (h.places.of_eq rfl rfl rfl rfl rfl) rfl rfl

theorem setControl (h : SchedInv g s R B) (c : Control) :
    SchedInv g { s with control := c } R B := h.mono (h.places.of_eq rfl rfl rfl rfl rfl) rfl rfl

theorem nodup_ready (h : SchedInv g s R B) : R.Nodup :=
  (List.nodup_cons.1 h.rings.left.nodup).2.of_map

theorem nodup_block (h : SchedInv g s R B) : B.Nodup :=
  (List.nodup_cons.1 h.rings.right.nodup).2.of_map

theorem disjoint (h : SchedInv g s R B) : R.Disjoint B := fun _ hR hB =>
  h.rings.apart (List.mem_cons_of_mem _ (List.mem_map_of_mem hR))
    (List.mem_cons_of_mem _ (List.mem_map_of_mem hB))

theorem length_le (h : SchedInv g s R B) : R.length ≤ 128 :=
  Places.length_le (fun p hp => h.procs p (List.mem_append_left B hp)) h.nodup_ready

theorem node_not_mem (hp : p ∈ g.procs) (hR : p ∉ R) : nodeOf p ∉ g.ready :: R.map nodeOf := by
  rw [List.mem_cons, not_or, List.mem_map_of_injective nodeOf_injective]
  exact ⟨(Places.nodeOf_ne hp).1, hR⟩

theorem node_not_mem' (hp : p ∈ g.procs) (hB : p ∉ B) : nodeOf p ∉ g.block :: B.map nodeOf := by
  rw [List.mem_cons, not_or, List.mem_map_of_injective nodeOf_injective]
  exact ⟨(Places.nodeOf_ne hp).2, hB⟩

/-- Queueing a process that is on no list. -/
theorem addReady (h : SchedInv g s R B) (hp : p ∈ g.procs) (hR : p ∉ R) (hB : p ∉ B) :
    SchedInv g (_schedAddReady s p) (R ++ [p]) B where
  places := h.places.of_eq rfl rfl rfl rfl rfl
  rings := by
    rw [List.map_append, List.map_singleton, _schedAddReady, h.places.ready]
    exact h.rings.listAdd_p32 (node_not_mem hp hR) (node_not_mem' hp hB) (by simp [nodeOf])
  readys := by
    have hlen := h.length_le
    rw [_schedAddReady, h.readys, List.length_append]
    exact u32_of_lt (by omega)
  procs := by
    intro q hq
    simp only [List.mem_append, List.mem_singleton] at hq
    rcases hq with (hq | rfl) | hq
    · exact h.procs q (List.mem_append_left B hq)
    · exact hp
    · exact h.procs q (List.mem_append_right R hq)

/-- `proc_create` on a slot whose process is on no list. -/
theorem fill (h : SchedInv g s R B) {i : ℕ} (hp : s.procAt i ∈ g.procs) (hR : s.procAt i ∉ R)
    (hB : s.procAt i ∉ B) (entryPoint : ℕ) :
    SchedInv g (_schedAddReady (procFill s i entryPoint) (s.procAt i)) (R ++ [s.procAt i]) B :=
  (h.mono (h.places.procFill i entryPoint) rfl rfl).addReady hp hR hB

theorem addBlock (h : SchedInv g s R B) (hp : p ∈ g.procs) (hR : p ∉ R) (hB : p ∉ B) :
    SchedInv g (schedAddBlock s p) R (B ++ [p]) := by
  have heq : schedAddBlock s p =
      { s with links := (listAdd s.links s.scheduler.blockList (nodeOf p)).2 } := by
    simp [schedAddBlock, h.places.inited, Places.ne_zero hp]
  rw [heq]
  refine ⟨h.places.of_eq rfl rfl rfl rfl rfl, ?_, h.readys, ?_⟩
  · rw [List.map_append, List.map_singleton, h.places.block]
    exact (h.rings.swap.listAdd_p32 (node_not_mem' hp hB) (node_not_mem hp hR)
      (by simp [nodeOf])).swap
  · intro q hq
    rw [← List.append_assoc, List.mem_append, List.mem_singleton] at hq
    rcases hq with hq | rfl
    · exact h.procs q hq
    · exact hp

/-- `sched_del_ready` of a process on the ready list. -/
theorem delReady (h : SchedInv g s (A ++ p :: C) B) (hst : (s.blk p).state = .ready) :
    SchedInv g (schedDelReady s p) (A ++ C) B := by
  have hp : p ∈ g.procs := h.procs p (by simp)
  have hlen := h.length_le
  have heq : schedDelReady s p = { s with
      links := (listDel s.links s.scheduler.readyList (nodeOf p)).2
      scheduler := { s.scheduler with readys := decr s.scheduler.readys } } := by
    simp [schedDelReady, h.places.inited, Places.ne_zero hp, hst]
  rw [heq]
  refine ⟨h.places.of_eq rfl rfl rfl rfl rfl, ?_, ?_, ?_⟩
  · have hr := h.rings
    rw [List.map_append, List.map_cons] at hr
    rw [List.map_append, h.places.ready]
    exact hr.listDel
  · have hlen' : (A ++ p :: C).length = (A ++ C).length + 1 := by simp [Nat.add_assoc]
    rw [hlen'] at hlen
    exact (congrArg decr (h.readys.trans hlen')).trans (decr_succ (by omega))
  · intro q hq
    apply h.procs q
    simp only [List.mem_append, List.mem_cons] at hq ⊢
    tauto

theorem delReady_of_ne (hst : (s.blk p).state ≠ .ready) : schedDelReady s p = s := by
  simp [schedDelReady, hst]

/-- A round of `_sched` with something on the ready list. -/
theorem round (h : SchedInv g s (p :: R) B) :
    SchedInv g (schedRound s) R B ∧ (schedRound s).scheduler.proc = p ∧
      (schedRound s).control = .user ∧
      (schedRound s).blk = Function.update s.blk p { s.blk p with state := .run } := by
  have hp : p ∈ g.procs := h.procs p (by simp)
  have hlen := h.length_le
  have hr := h.rings
  rw [List.map_cons] at hr
  obtain ⟨hnode, hrings⟩ := hr.listGet_p32
  have hnz : nodeOf p ≠ 0 := by simp [nodeOf]
  have heq : schedRound s = { s with
      links := (listGet s.links g.ready).2
      blk := Function.update s.blk p { s.blk p with state := .run }
      scheduler := { s.scheduler with
        readys := decr s.scheduler.readys
        proc := p }
      control := .user } := by
    simp [schedRound, h.readys, h.places.ready, hnode, hnz, Places.containerOf_nodeOf hp,
      Places.ne_zero hp, Kernel.setState]
  rw [heq]
  refine ⟨⟨h.places.of_eq rfl rfl rfl rfl rfl, hrings, ?_, ?_⟩, rfl, rfl, rfl⟩
  · rw [List.length_cons] at hlen
    exact (congrArg decr h.readys).trans (decr_succ (by omega))
  · exact fun q hq => h.procs q (List.mem_cons_of_mem p hq)

theorem round_nil (h : SchedInv g s [] B) : schedRound s = s := by
  simp [schedRound, h.readys]

end SchedInv

end YohdaOS.P32
