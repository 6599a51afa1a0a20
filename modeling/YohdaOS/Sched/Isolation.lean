import YohdaOS.Sched.Reuse

/-!
# Processes keep to their own

The identity of a process comes from a counter, its stack from its slot.  As long as the counter has
not wrapped, the processes of the table have different identities and stacks apart from one another.
-/

namespace YohdaOS.P32

open ByteMem Runs

/-- The kernel, and the number of processes created so far. -/
structure ProcRun where
  s : Kernel
  created : ℕ

/-- A call of `proc_create`, or one of `proc_exit` on NULL or a process control block. -/
inductive ProcStep : ProcRun → ProcRun → Prop
  | create (r : ProcRun) (entryPoint : ℕ) :
      ProcStep r ⟨(procCreate r.s entryPoint).2,
        if (procCreate r.s entryPoint).1 = 0 then r.created else r.created + 1⟩
  | exit (r : ProcRun) (proc : ℕ) (hproc : proc = 0 ∨ ∃ i < PROC_MAX, proc = r.s.procAt i) :
      ProcStep r ⟨procExit r.s proc, r.created⟩

/-- The slot is in use. -/
def Kernel.Used (s : Kernel) (i : ℕ) : Prop := (s.blk (s.procAt i)).state ≠ .free

/-- Any two processes have different identities and stacks that do not meet, inside the area from
`stack` on. -/
structure Isolated (stack : ℕ) (s : Kernel) : Prop where
  id_ne : ∀ i < PROC_MAX, ∀ j < PROC_MAX, i ≠ j → s.Used i → s.Used j →
    (s.blk (s.procAt i)).id ≠ (s.blk (s.procAt j)).id
  apart : ∀ i < PROC_MAX, ∀ j < PROC_MAX, i ≠ j → s.Used i → s.Used j →
    ¬Meets (s.blk (s.procAt i)).stack PROC_STACK_SIZE (s.blk (s.procAt j)).stack PROC_STACK_SIZE
  inside : ∀ i < PROC_MAX, s.Used i → stack ≤ (s.blk (s.procAt i)).stack ∧
    (s.blk (s.procAt i)).stack + PROC_STACK_SIZE ≤ stack + PROC_MAX * PROC_STACK_SIZE

/-- What `proc_create` does to the kernel `s`: it fails exactly when all slots are in use, and then
changes nothing; otherwise it takes a free slot, and the two frames that it makes follow one another
in the stack of that slot. -/
structure CreateOk (s : Kernel) (r : ℕ × Kernel) : Prop where
  null_iff : r.1 = 0 ↔ ∀ i < PROC_MAX, s.Used i
  null : r.1 = 0 → r.2 = s
  frames : r.1 ≠ 0 → ∃ i < PROC_MAX, r.1 = s.procAt i ∧ ¬s.Used i ∧
    (r.2.blk r.1).stack ≤ (r.2.blk r.1).pc ∧
    (r.2.blk r.1).pc + sizeofProcContext ≤ (r.2.blk r.1).ic ∧
    (r.2.blk r.1).ic + sizeofIntrContext ≤ (r.2.blk r.1).stack + PROC_STACK_SIZE ∧
    Frame (r.2.blk r.1).pc ((r.2.blk r.1).pc + sizeofProcContext) s.mem r.2.mem

/-- The kernel after `created` creations, with the stacks from `stack` on. -/
structure ProcInv (stack : ℕ) (s : Kernel) (created : ℕ) : Prop where
  table : s.procMgr.procTable ≠ 0
  area : s.procMgr.stack = stack
  inited : s.procMgr.inited = true
  pid : s.procMgr.pid = created
  id_lt : ∀ i < PROC_MAX, s.Used i → (s.blk (s.procAt i)).id < created
  id_ne : ∀ i < PROC_MAX, ∀ j < PROC_MAX, i ≠ j → s.Used i → s.Used j →
    (s.blk (s.procAt i)).id ≠ (s.blk (s.procAt j)).id
  slot : ∀ i < PROC_MAX, s.Used i → (s.blk (s.procAt i)).stack = stack + i * PROC_STACK_SIZE

variable {stack created i entryPoint : ℕ} {s : Kernel}

theorem ProcInv.isolated (h : ProcInv stack s created) : Isolated stack s where
  id_ne := h.id_ne
  apart i hi j hj hij hused hused' := by
    rw [h.slot i hi hused, h.slot j hj hused']
    unfold Meets PROC_STACK_SIZE
    omega
  inside i hi hused := by
    rw [h.slot i hi hused]
    unfold PROC_STACK_SIZE PROC_MAX at *
    omega

/-- A slot is freed, or goes to a process with a new identity and the stack of the slot; the other
slots stay. -/
theorem ProcInv.change (h : ProcInv stack s created) {t : Kernel} {created' : ℕ}
    (htable : t.procMgr.procTable = s.procMgr.procTable) (harea : t.procMgr.stack = s.procMgr.stack)
    (hinited : t.procMgr.inited = s.procMgr.inited) (hpid : t.procMgr.pid = created')
    (hle : created ≤ created') (hother : ∀ j ≠ i, t.blk (s.procAt j) = s.blk (s.procAt j))
    (hself : t.Used i → created ≤ (t.blk (s.procAt i)).id ∧ (t.blk (s.procAt i)).id < created' ∧
      (t.blk (s.procAt i)).stack = stack + i * PROC_STACK_SIZE) :
    ProcInv stack t created' := by
  have hat (j : ℕ) : t.procAt j = s.procAt j := by
    rw [Kernel.procAt, Kernel.procAt, htable]
  have hused (j : ℕ) (hj : j ≠ i) : t.Used j ↔ s.Used j := by
    rw [Kernel.Used, Kernel.Used, hat, hother j hj]
  have hold (j : ℕ) (hlt : j < PROC_MAX) (hj : j ≠ i) (hu : t.Used j) :
      (t.blk (s.procAt j)).id < created := by
    rw [hother j hj]
    exact h.id_lt j hlt ((hused j hj).1 hu)
  constructor
  case table => rw [htable]; exact h.table
  case area => rw [harea]; exact h.area
  case inited => rw [hinited]; exact h.inited
  case pid => exact hpid
  case id_lt =>
    intro j hj hu
    rw [hat]
    by_cases hji : j = i
    · subst hji
      exact (hself hu).2.1
    · exact (hold j hj hji hu).trans_le hle
  case id_ne =>
    intro j hj k hk hjk hu hu'
    rw [hat, hat]
    by_cases hji : j = i
    · subst hji
      exact ((hold k hk (Ne.symm hjk) hu').trans_le (hself hu).1).ne'
    · by_cases hki : k = i
      · subst hki
        exact ((hold j hj hji hu).trans_le (hself hu').1).ne
      · rw [hother j hji, hother k hki]
        exact h.id_ne j hj k hk hjk ((hused j hji).1 hu) ((hused k hki).1 hu')
  case slot =>
    intro j hj hu
    rw [hat]
    by_cases hji : j = i
    · subst hji
      exact (hself hu).2.2
    · rw [hother j hji]
      exact h.slot j hj ((hused j hji).1 hu)

/-! ## Creation -/

theorem procFindFree_eq_none_iff : procFindFree s = none ↔ ∀ i < PROC_MAX, s.Used i := by
  rw [procFindFree, List.find?_range_eq_none]
  simp [Kernel.Used]

/-- `proc_create` on the first free slot. -/
theorem ProcInv.create_eq (h : ProcInv stack s created) (hfree : procFindFree s = some i) :
    procCreate s entryPoint =
      (s.procAt i, schedAddReady (procFill s i entryPoint) (s.procAt i)) := by
  rw [procCreate, h.inited, hfree]
  rfl

theorem ProcInv.create_none (h : ProcInv stack s created) (hfull : procFindFree s = none) :
    procCreate s entryPoint = (0, s) := by
  rw [procCreate, h.inited, hfull]
  rfl

theorem procFill_blk_self (s : Kernel) (i entryPoint : ℕ) :
    (procFill s i entryPoint).blk (s.procAt i) =
      ⟨s.procMgr.pid, .ready, s.procMgr.stack + i * PROC_STACK_SIZE,
        s.procMgr.stack + i * PROC_STACK_SIZE + PROC_STACK_SIZE - sizeofIntrContext,
        s.procMgr.stack + i * PROC_STACK_SIZE + PROC_STACK_SIZE - sizeofIntrContext -
          sizeofProcContext⟩ :=
  Function.update_self _ _ _

theorem procFill_blk_of_ne (s : Kernel) (entryPoint : ℕ) {i j : ℕ} (h : j ≠ i) :
    (procFill s i entryPoint).blk (s.procAt j) = s.blk (s.procAt j) :=
  Function.update_of_ne (fun heq => h (procAt_injective heq)) _ _

/-- Queuing a process leaves the table and the memory alone. -/
theorem schedAddReady_kept (s : Kernel) (proc : ℕ) :
    (schedAddReady s proc).blk = s.blk ∧ (schedAddReady s proc).procMgr = s.procMgr ∧
      (schedAddReady s proc).mem = s.mem := by
  unfold schedAddReady
  split_ifs <;> exact ⟨rfl, rfl, rfl⟩

theorem ProcInv.procAt_ne (h : ProcInv stack s created) (i : ℕ) : s.procAt i ≠ 0 := by
  have := h.table
  unfold Kernel.procAt
  omega

theorem ProcInv.createOk (h : ProcInv stack s created) : CreateOk s (procCreate s entryPoint) := by
  cases hfree : procFindFree s with
  | none =>
    rw [h.create_none hfree]
    exact ⟨iff_of_true rfl (procFindFree_eq_none_iff.1 hfree), fun _ => rfl, fun hne => absurd rfl hne⟩
  | some i =>
    obtain ⟨hi, hstate, -⟩ := procFindFree_first hfree
    have hused : ¬s.Used i := not_not.2 hstate
    rw [h.create_eq hfree]
    obtain ⟨hblk, -, hmem⟩ := schedAddReady_kept (procFill s i entryPoint) (s.procAt i)
    refine ⟨iff_of_false (h.procAt_ne i) fun hall => hused (hall i hi),
      fun hnull => absurd hnull (h.procAt_ne i), fun _ => ⟨i, hi, rfl, hused, ?_⟩⟩
    simp only
    rw [hblk, hmem, procFill_blk_self]
    simp only
    unfold sizeofProcContext sizeofIntrContext PROC_STACK_SIZE
    have hfill := frame_fill s.mem (s.procMgr.stack + i * 2048 + 2048 - 80 - 20) 0 20
    refine ⟨by omega, by omega, by omega, hfill.trans ?_⟩
    exact (frame_store32 _ _ _).mono (Nat.le_add_right _ _) le_rfl

/-- A creation takes the next identity and the stack of its slot. -/
theorem ProcInv.fill (h : ProcInv stack s created) (hlt : created + 1 < 4294967296)
    (hfree : procFindFree s = some i) :
    ProcInv stack (procCreate s entryPoint).2 (created + 1) := by
  rw [h.create_eq hfree]
  obtain ⟨hblk, hmgr, -⟩ := schedAddReady_kept (procFill s i entryPoint) (s.procAt i)
  have hpid : u32 (s.procMgr.pid + 1) = created + 1 := by
    rw [h.pid, u32_of_lt hlt]
  apply h.change (i := i)
  case htable => rw [hmgr]; rfl
  case harea => rw [hmgr]; rfl
  case hinited => rw [hmgr]; rfl
  case hpid => rw [hmgr]; exact hpid
  case hle => exact Nat.le_succ created
  case hother =>
    intro j hj
    rw [hblk, procFill_blk_of_ne s entryPoint hj]
  case hself =>
    intro _
    rw [hblk, procFill_blk_self, h.area, h.pid]
    exact ⟨le_rfl, Nat.lt_succ_self created, rfl⟩

/-! ## Exit -/

/-- A process that exits frees its slot. -/
theorem ProcInv.exit (h : ProcInv stack s created) (i : ℕ) :
    ProcInv stack (procExit s (s.procAt i)) created := by
  have hexit : procExit s (s.procAt i) = s.setState (s.procAt i) .free := if_neg (h.procAt_ne i)
  have hself : (s.setState (s.procAt i) .free).blk (s.procAt i) =
      { s.blk (s.procAt i) with state := .free } :=
    Function.update_self _ _ _
  rw [hexit]
  apply h.change (i := i)
  case htable => rfl
  case harea => rfl
  case hinited => rfl
  case hpid => exact h.pid
  case hle => exact le_rfl
  case hother =>
    intro j hj
    exact Function.update_of_ne (fun heq => hj (procAt_injective heq)) _ _
  case hself =>
    intro hu
    exact absurd (congrArg ProcCtrlBlk.state hself) hu

/-! ## Runs -/

theorem procInv_init (s : Kernel) (htable : s.procMgr.procTable ≠ 0) (stack : ℕ) :
    ProcInv stack (procInit s stack) 0 := by
  have hfree (i : ℕ) (hi : i < PROC_MAX) : ¬(procInit s stack).Used i := by
    intro hu
    apply hu
    have hin : s.procMgr.procTable ≤ (procInit s stack).procAt i ∧
        (procInit s stack).procAt i < s.procMgr.procTable + sizeofProcCtrlBlk * PROC_MAX := by
      have : (procInit s stack).procAt i = s.procMgr.procTable + sizeofProcCtrlBlk * i := rfl
      unfold sizeofProcCtrlBlk at *
      omega
    simp only [procInit] at hin ⊢
    rw [if_pos hin]
  exact
    { table := htable
      area := rfl
      inited := rfl
      pid := rfl
      id_lt := fun i hi hu => absurd hu (hfree i hi)
      id_ne := fun i hi _ _ _ hu => absurd hu (hfree i hi)
      slot := fun i hi hu => absurd hu (hfree i hi) }

/-- The invariant, as long as the counter has not wrapped. -/
def ProcRunInv (stack : ℕ) (r : ProcRun) : Prop :=
  r.created < 4294967296 → ProcInv stack r.s r.created

theorem procStep_inv {r r' : ProcRun} (h : ProcRunInv stack r) (hstep : ProcStep r r') :
    ProcRunInv stack r' := by
  cases hstep with
  | create entryPoint =>
    intro hlt
    have hle : r.created ≤
        if (procCreate r.s entryPoint).1 = 0 then r.created else r.created + 1 := by
      split_ifs <;> omega
    have hinv := h (hle.trans_lt hlt)
    cases hfree : procFindFree r.s with
    | none =>
      simp only [hinv.create_none hfree, if_true]
      exact hinv
    | some i =>
      have hne : (procCreate r.s entryPoint).1 ≠ 0 := by
        rw [hinv.create_eq hfree]
        exact hinv.procAt_ne i
      simp only [if_neg hne] at hlt ⊢
      exact hinv.fill hlt hfree
  | exit proc hproc =>
    intro hlt
    have hinv := h hlt
    obtain rfl | ⟨i, -, rfl⟩ := hproc
    · exact hinv
    · exact hinv.exit i

/-- A kernel with its process table in place, before `proc_init`. -/
def tableKernel : Kernel where
  mem := ⟨fun _ => 0⟩
  links := ⟨fun _ => 0, fun _ => 0⟩
  blk := fun _ => ⟨7, .ready, 0, 0, 0⟩
  procMgr := ⟨0xC0200000, 0, 0, false⟩
  scheduler := ⟨false, 0, 0, 0, 0, 0⟩
  control := .boot
  switchKernToUser := 0xC0100000

end YohdaOS.P32
