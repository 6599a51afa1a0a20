import YohdaOS.Lib.Threads
import YohdaOS.Sched.Robin
import YohdaOS.Switch.Run

/-!
# The scheduler and the switch together

The scheduler of sched.c decides who runs and task.asm changes the stack; here they act on one
machine.  The code passes the addresses that it finds in its own data, and the machine goes where
the frame at the address takes it.  What comes out are threads that take turns.
-/

namespace YohdaOS.P32

open ByteMem Runs

namespace RobinInv

variable {g : Places} {k : Kernel} {R : List ℕ}

theorem setMem (h : RobinInv g k R) (m : Mem) : RobinInv g { k with mem := m } R :=
  ⟨h.inv.mono (h.inv.places.of_eq rfl rfl rfl rfl rfl) rfl rfl, h.ready, h.state, h.control, h.proc⟩

theorem start (h : RobinInv g k R) (hc : k.control = .boot) : RobinInv g (sched k) R := by
  obtain ⟨R', -, h', -⟩ := h.step (e := .start) trivial (.start hc)
  have hring : ReadyRing (sched k) R := by
    rw [sched, h.inv.places.inited]
    exact h.inv.readyRing
  rwa [hring.unique h'.inv.readyRing]

/-- A round without a process does nothing. -/
theorem spin (h : RobinInv g k R) (hu : (schedRound k).control ≠ .user) : schedRound k = k := by
  cases R with
  | nil => exact h.inv.round_nil
  | cons q R => exact absurd h.inv.round.2.2.1 hu

end RobinInv

namespace Switch

/-- What a context resumes with: its registers, and its stack from the stack pointer on. -/
structure Context where
  saved : Saved
  stack : List (BitVec 8)

def stackBytes (m : Mem) (esp hi : ℕ) : List (BitVec 8) :=
  (List.range (hi - esp)).map fun j => m.byte (esp + j)

section

variable {ι : Type} {L : Layout ι} {s s' a b : Sys ι} {c d : ι} {x : Context} {e : Event ι}
  {m m' : Mem} {esp hi : ℕ}

def Sys.context (L : Layout ι) (s : Sys ι) : Context :=
  ⟨s.cpu.saved, stackBytes s.cpu.mem (s.cpu.reg .esp).toNat (L.hi s.run)⟩

/-- The context of a new process: above its stack pointer there is an interrupt context, in which
nothing has been set. -/
def Layout.fresh (L : Layout ι) (m : Mem) (c : ι) (entryPoint : Word) : Context :=
  ⟨⟨0, 0, 0, 0, BitVec.ofNat 32 (L.hi c - sizeofIntrContext), L.start entryPoint⟩,
    stackBytes m (L.hi c - sizeofIntrContext) (L.hi c)⟩

/-- The running context has the address `old` and the word at `new` on its stack, and room for a
frame. -/
structure Sys.Passes (L : Layout ι) (s : Sys ι) (old new : ℕ) : Prop where
  room : L.lo s.run + 20 ≤ (s.cpu.reg .esp).toNat
  inside : (s.cpu.reg .esp).toNat + 8 ≤ L.hi s.run
  old : loadWord s.cpu.mem (s.cpu.reg .esp) = BitVec.ofNat 32 old
  new : loadWord s.cpu.mem (s.cpu.reg .esp + 4) = loadWord s.cpu.mem (BitVec.ofNat 32 new)

theorem Sys.Calls.passes (h : s.Calls L d) : s.Passes L (L.slot s.run) (L.slot d) :=
  ⟨h.room, h.inside, h.old, h.new⟩

theorem Sys.Passes.calls (h : s.Passes L (L.slot s.run) (L.slot d)) : s.Calls L d :=
  ⟨h.room, h.inside, h.old, h.new⟩

/-- The context is suspended, and would resume as `x`. -/
structure Sleeps (L : Layout ι) (c : ι) (x : Context) (s : Sys ι) : Prop where
  asleep : Sys.Asleep L c x.saved s
  stack : stackBytes s.cpu.mem x.saved.esp.toNat (L.hi c) = x.stack

theorem stackBytes_congr (h : ∀ z, esp ≤ z → z < hi → m'.byte z = m.byte z) :
    stackBytes m' esp hi = stackBytes m esp hi := by
  apply List.map_congr_left
  intro j hj
  have hlt := List.mem_range.1 hj
  exact h _ (Nat.le_add_right _ _) (by omega)

/-- The stack above the stack pointer belongs to the context. -/
theorem Sleeps.area (h : Sleeps L c x s) {z : ℕ} (hlo : x.saved.esp.toNat ≤ z) (hhi : z < L.hi c) :
    L.Area c z := by
  have hbottom := h.asleep.mem.bottom
  exact Or.inl ⟨by omega, hhi⟩

theorem Sleeps.step (h : Sleeps L c x s) (hr : ¬e.Resumes c) (hm : ¬e.Makes c)
    (hstep : Sys.Step L s e s') : Sleeps L c x s' := by
  refine ⟨h.asleep.step ⟨hr, hm⟩ hstep, ?_⟩
  rw [← h.stack]
  exact stackBytes_congr fun z hlo hhi => hstep.byte h.asleep.run hm (h.area hlo hhi)

theorem Sleeps.over_switch (h : Sleeps L c x a) (hne : d ≠ c) (hstep : Sys.Step L a (.switch d) b) :
    Sleeps L c x b := h.step (e := .switch d) hne id hstep

theorem Sleeps.over_create {entryPoint : Word} (h : Sleeps L c x a) (hne : d ≠ c)
    (hstep : Sys.Step L a (.create d entryPoint) b) : Sleeps L c x b :=
  h.step (e := .create d entryPoint) id hne hstep

/-- A call leaves the stack of its caller as it was above the stack pointer. -/
theorem Sys.Calls.byte_above (h : s.Calls L d) {z : ℕ} (hlo : (s.cpu.reg .esp).toNat ≤ z)
    (hhi : z < L.hi s.run) : (callSwitch s.cpu).mem.byte z = s.cpu.mem.byte z := by
  have hroom := h.room
  have hslot := L.apart s.run s.run
  rw [h.mem, frame_store32 _ _ _ z (by omega), pushedMem_eq _ rfl (by omega),
    frame_store32 _ _ _ z (by omega), frame_store32 _ _ _ z (by omega),
    frame_store32 _ _ _ z (by omega), frame_store32 _ _ _ z (by omega),
    frame_store32 _ _ _ z (by omega)]

/-- The context that is left would resume as it is. -/
theorem Sleeps.of_switch (h : Sys.Step L a (.switch d) b) : Sleeps L a.run (a.context L) b := by
  refine ⟨h.asleep_of_switch, ?_⟩
  cases h with
  | switch d hne hcall => exact stackBytes_congr fun z hlo hhi => hcall.byte_above hlo hhi

theorem Sleeps.of_create {entryPoint : Word} (h : Sys.Step L a (.create c entryPoint) b) :
    Sleeps L c (L.fresh a.cpu.mem c entryPoint) b := by
  refine ⟨h.asleep_of_create, ?_⟩
  cases h with
  | create d entryPoint hne hsize =>
    have hhi := L.hi_lt c
    have hslot := L.apart c c
    have hesp : (BitVec.ofNat 32 (L.hi c - sizeofIntrContext)).toNat =
        L.hi c - sizeofIntrContext := by
      rw [BitVec.toNat_ofNat, Nat.mod_eq_of_lt (by omega)]
    simp only [Layout.fresh, hesp]
    refine stackBytes_congr fun z hlo hhi' => ?_
    rw [PROC_STACK_SIZE] at hsize
    rw [sizeofIntrContext] at hlo
    simp only [procContext, PROC_STACK_SIZE, sizeofIntrContext, sizeofProcContext, offsetEip]
    rw [frame_store32 _ _ _ z (by omega), frame_fill _ _ _ _ z (by omega),
      frame_store32 _ _ _ z (by omega)]

/-- The context that is resumed is the one that was left. -/
theorem Sleeps.resumes (h : Sleeps L c x a) (hstep : Sys.Step L a (.switch c) b) :
    b.run = c ∧ b.context L = x := by
  obtain ⟨hrun, hsaved⟩ := hstep.resumes h.asleep.mem
  refine ⟨hrun, ?_⟩
  have hesp : b.cpu.reg .esp = x.saved.esp := by rw [← hsaved, Cpu.saved_esp]
  have hstack : stackBytes b.cpu.mem x.saved.esp.toNat (L.hi c) = x.stack := by
    rw [← h.stack]
    exact stackBytes_congr fun z hlo hhi => hstep.byte h.asleep.run id (h.area hlo hhi)
  rw [Sys.context, hsaved, hesp, hrun, hstack]

end

/-! ## The kernel on the machine -/

/-- The kernel with its memory, the other registers of the machine, and the context that runs. -/
structure World where
  kernel : Kernel
  reg : Reg → Word
  eip : Word
  run : Option (Fin PROC_MAX)

def World.sys (w : World) : Sys (Option (Fin PROC_MAX)) := ⟨⟨w.reg, w.eip, w.kernel.mem⟩, w.run⟩

/-- The machine goes on, with the data of the kernel. -/
def World.of (k : Kernel) (s : Sys (Option (Fin PROC_MAX))) : World :=
  ⟨{ k with mem := s.cpu.mem }, s.cpu.reg, s.cpu.eip, s.run⟩

theorem World.sys_of (k : Kernel) (s : Sys (Option (Fin PROC_MAX))) : (World.of k s).sys = s := rfl

/-- The kernel after `proc_create` on slot `i`, where the word at `slot` is the field `pc`. -/
def createdKernel (p : Placement) (k : Kernel) (i : Fin PROC_MAX) (entryPoint : ℕ) : Kernel :=
  let k' := (procCreate k entryPoint).2
  { k' with mem := store32 k'.mem (p.slot (some i)) (k'.blk (k.procAt i)).pc }

/-- `start` is a `sched` that is called, `spin` a round of its loop without a process.  `full` is a
`proc_create` that finds no slot. -/
inductive World.Step (p : Placement) (w : World) :
    Threads.Event (Fin PROC_MAX) Context → World → Prop
  | code (cpu : Cpu) (hkeep : Sys.Keeps p.layout w.run w.kernel.mem cpu.mem) :
      Step p w .code (.of w.kernel ⟨cpu, w.run⟩)
  | start (hc : w.kernel.control = .boot) : Step p w .code { w with kernel := sched w.kernel }
  | spin (hc : w.kernel.control = .loop) (hu : (schedRound w.kernel).control ≠ .user) :
      Step p w .code { w with kernel := schedRound w.kernel }
  | full (entryPoint : Word) (hc : w.kernel.control = .boot ∨ w.kernel.control = .user)
      (hi : procFindFree w.kernel = none) :
      Step p w .code { w with kernel := (procCreate w.kernel entryPoint.toNat).2 }
  | create (i : Fin PROC_MAX) (entryPoint : Word)
      (hc : w.kernel.control = .boot ∨ w.kernel.control = .user)
      (hi : procFindFree w.kernel = some (i : ℕ)) :
      Step p w (.create i (p.layout.fresh w.sys.cpu.mem (some i) entryPoint))
        { w with kernel := createdKernel p w.kernel i entryPoint.toNat }
  /-- `context_switch(&(scheduler.context), new->pc)` -/
  | dispatch (i : Fin PROC_MAX) (hc : w.kernel.control = .loop)
      (hu : (schedRound w.kernel).control = .user)
      (hnew : (schedRound w.kernel).scheduler.proc = w.kernel.procAt i)
      (hcall : w.sys.Passes p.layout p.context
        ((schedRound w.kernel).scheduler.proc + offsetPc)) :
      Step p w (.dispatch i (w.sys.context p.layout)
          (Sys.context p.layout ⟨callSwitch w.sys.cpu, some i⟩))
        (.of (schedRound w.kernel) ⟨callSwitch w.sys.cpu, some i⟩)
  /-- `context_switch(&(curr_proc->pc), scheduler.context)` -/
  | yield (i : Fin PROC_MAX) (hc : w.kernel.control = .user)
      (hcurr : w.kernel.scheduler.proc = w.kernel.procAt i)
      (hcall : w.sys.Passes p.layout (w.kernel.scheduler.proc + offsetPc) p.context) :
      Step p w (.yield i (w.sys.context p.layout)
          (Sys.context p.layout ⟨callSwitch w.sys.cpu, none⟩))
        (.of (schedYield w.kernel) ⟨callSwitch w.sys.cpu, none⟩)

/-- The machine when `proc_init` and `sched_init` have run. -/
def World.boot (p : Placement) (g : Places) (raw : Kernel) (reg : Reg → Word) (eip : Word) :
    World :=
  ⟨bootKernel g { raw with switchKernToUser := p.switchKernToUser.toNat } p.stack, reg, eip, none⟩

/-! ## proc_create on the machine -/

/-- The field `pc` is not in the stack, so it does not matter when it is set. -/
theorem procContext_comm (m : Mem) {stack slot : ℕ} (eip : Word)
    (hslot : slot + 4 ≤ stack ∨ stack + PROC_STACK_SIZE ≤ slot) :
    let pc := stack + PROC_STACK_SIZE - sizeofIntrContext - sizeofProcContext
    store32 (store32 (fill m pc 0 sizeofProcContext) (pc + offsetEip) eip.toNat) slot pc =
      procContext m stack slot eip := by
  simp only [procContext, PROC_STACK_SIZE, sizeofIntrContext, sizeofProcContext, offsetEip] at *
  ext x : 2
  by_cases hx : slot ≤ x ∧ x < slot + 4
  · rw [frame_store32 (fill (store32 m slot _) _ _ _) _ _ x (by omega),
      frame_fill _ _ _ _ x (by omega)]
    apply byte_store32_congr
    rw [frame_store32 _ _ _ x (by omega), frame_fill _ _ _ _ x (by omega)]
  · rw [frame_store32 _ slot _ x (by omega)]
    apply byte_store32_congr
    apply byte_fill_congr
    rw [frame_store32 _ _ _ x (by omega)]

variable {p : Placement} {g : Places} {w w' : World} {k : Kernel} {i : Fin PROC_MAX}

theorem createdKernel_eq (h : At g k) (hi : procFindFree k = some (i : ℕ))
    (hstack : k.procMgr.stack = p.stack) (hstart : k.switchKernToUser = p.switchKernToUser.toNat)
    (entryPoint : Word) :
    createdKernel p k i entryPoint.toNat =
      { _schedAddReady (procFill k i entryPoint.toNat) (k.procAt i) with
        mem := procContext k.mem (p.layout.lo (some i)) (p.layout.slot (some i))
          (p.layout.start entryPoint) } := by
  have heip : (if entryPoint.toNat = 0 then k.switchKernToUser else entryPoint.toNat) =
      (p.layout.start entryPoint).toNat := by
    have hzero : entryPoint.toNat = 0 ↔ entryPoint = 0 := BitVec.toNat_inj (y := 0)
    by_cases hz : entryPoint = 0
    · rw [if_pos (hzero.2 hz), Layout.start, if_pos hz, hstart]
      rfl
    · rw [if_neg (fun h => hz (hzero.1 h)), Layout.start, if_neg hz]
  have hslot : p.slot (some i) + 4 ≤ p.stack + i * PROC_STACK_SIZE ∨
      p.stack + i * PROC_STACK_SIZE + PROC_STACK_SIZE ≤ p.slot (some i) := p.apart (some i) (some i)
  have hcomm := procContext_comm k.mem (p.layout.start entryPoint) hslot
  have hmem : (procFill k i entryPoint.toNat).mem =
      store32 (fill k.mem (p.stack + i * PROC_STACK_SIZE + PROC_STACK_SIZE - sizeofIntrContext -
        sizeofProcContext) 0 sizeofProcContext) (p.stack + i * PROC_STACK_SIZE + PROC_STACK_SIZE -
        sizeofIntrContext - sizeofProcContext + offsetEip) (p.layout.start entryPoint).toNat := by
    simp only [procFill, hstack, heip]
  have hpc : ((procFill k i entryPoint.toNat).blk (k.procAt i)).pc =
      p.stack + i * PROC_STACK_SIZE + PROC_STACK_SIZE - sizeofIntrContext - sizeofProcContext := by
    simp only [procFill, hstack, Function.update_self]
  have hlaid : p.layout.lo (some i) = p.stack + i * PROC_STACK_SIZE := rfl
  have hslotOf : p.layout.slot (some i) = p.slot (some i) := rfl
  rw [createdKernel, procCreate_some h hi (procFindFree_spec h hi).1, hlaid, hslotOf, ← hcomm,
    ← hmem, ← hpc]
  rfl

/-! ## What every step keeps -/

/-- The table, the stacks and the first instruction of a process are where the machine has them. -/
structure Placed (p : Placement) (k : Kernel) : Prop where
  table : k.procMgr.procTable = p.procTable
  stack : k.procMgr.stack = p.stack
  start : k.switchKernToUser = p.switchKernToUser.toNat

/-- `&proc_mgr.proc_table[i]` -/
def Placement.proc (p : Placement) (i : Fin PROC_MAX) : ℕ := p.procTable + sizeofProcCtrlBlk * i

theorem Placement.proc_injective (p : Placement) : Function.Injective p.proc := by
  intro i j h
  simp only [Placement.proc, sizeofProcCtrlBlk] at h
  exact Fin.ext (by omega)

theorem Placement.slot_none (p : Placement) : p.slot none = p.context := rfl

theorem Placement.slot_some (p : Placement) (i : Fin PROC_MAX) :
    p.slot (some i) = p.proc i + offsetPc := rfl

theorem Placed.procAt (h : Placed p k) (i : Fin PROC_MAX) : k.procAt i = p.proc i := by
  rw [Kernel.procAt, h.table, Placement.proc]

theorem Placed.of_eq {k' : Kernel} (h : Placed p k)
    (htable : k'.procMgr.procTable = k.procMgr.procTable)
    (hstack : k'.procMgr.stack = k.procMgr.stack)
    (hstart : k'.switchKernToUser = k.switchKernToUser) : Placed p k' :=
  ⟨htable.trans h.table, hstack.trans h.stack, hstart.trans h.start⟩

theorem Placed.round (h : Placed p k) : Placed p (schedRound k) := by
  unfold schedRound
  dsimp only
  split_ifs <;> exact h.of_eq rfl rfl rfl

theorem Placed.create (h : Placed p k) (entryPoint : ℕ) : Placed p (procCreate k entryPoint).2 := by
  unfold procCreate schedAddReady _schedAddReady
  split_ifs
  · exact h
  · cases procFindFree k with
    | none => exact h
    | some i =>
      dsimp only
      split_ifs <;> exact h.of_eq rfl rfl rfl

theorem Placed.yield (h : Placed p k) : Placed p (schedYield k) := by
  unfold schedYield schedRequeue _schedAddReady
  split_ifs <;> exact h.of_eq rfl rfl rfl

theorem Placed.sched (h : Placed p k) : Placed p (sched k) := by
  unfold P32.sched
  split_ifs <;> exact h.of_eq rfl rfl rfl

/-- The machine runs what the kernel says, and a loop that waits would resume as it was left. -/
def HasTurn (p : Placement) (k : Kernel) (s : Sys (Option (Fin PROC_MAX))) :
    Threads.Turn (Fin PROC_MAX) Context → Prop
  | .loop => s.run = none ∧ k.control ≠ .user
  | .thread i back => s.run = some i ∧ k.control = .user ∧ k.scheduler.proc = p.proc i ∧
      Sleeps p.layout none back s

/-- The ready list holds the threads of the queue, which sleep on the machine. -/
structure Shows (p : Placement) (g : Places) (w : World)
    (a : Threads.State (Fin PROC_MAX) Context) : Prop where
  placed : Placed p w.kernel
  inv : RobinInv g w.kernel ((a.queue.map Prod.fst).map p.proc)
  queue : ∀ q ∈ a.queue, Sleeps p.layout (some q.1) q.2 w.sys
  turn : HasTurn p w.kernel w.sys a.turn

variable {a : Threads.State (Fin PROC_MAX) Context} {e : Threads.Event (Fin PROC_MAX) Context}
  {s' : Sys (Option (Fin PROC_MAX))} {q : List (Fin PROC_MAX × Context)} {x : Context}

/-- Nothing that the turn is about has changed. -/
theorem HasTurn.mono {k' : Kernel} {s : Sys (Option (Fin PROC_MAX))}
    {t : Threads.Turn (Fin PROC_MAX) Context} (h : HasTurn p k s t) (hrun : s'.run = s.run)
    (huser : k'.control = .user ↔ k.control = .user)
    (hproc : k'.scheduler.proc = k.scheduler.proc)
    (hback : ∀ x, Sleeps p.layout none x s → Sleeps p.layout none x s') : HasTurn p k' s' t := by
  cases t with
  | loop => exact ⟨hrun.trans h.1, fun hc => h.2 (huser.1 hc)⟩
  | thread i x => exact ⟨hrun.trans h.1, huser.2 h.2.1, hproc.trans h.2.2.1, hback x h.2.2.2⟩

namespace Shows

theorem of (hplaced : Placed p k) (hinv : RobinInv g k ((a.queue.map Prod.fst).map p.proc))
    (hqueue : ∀ q ∈ a.queue, Sleeps p.layout (some q.1) q.2 s') (hturn : HasTurn p k s' a.turn) :
    Shows p g (.of k s') a :=
  ⟨hplaced.of_eq rfl rfl rfl, hinv.setMem _, hqueue, hturn⟩

/-- The code of whoever runs keeps to its own stack. -/
theorem code (h : Shows p g w a) {cpu : Cpu}
    (hkeep : Sys.Keeps p.layout w.run w.kernel.mem cpu.mem) :
    Shows p g (.of w.kernel ⟨cpu, w.run⟩) a := by
  have hstep := Sys.Step.code w.sys cpu hkeep
  refine .of h.placed h.inv (fun q hq => (h.queue q hq).step (e := .code) id id hstep) ?_
  exact h.turn.mono rfl Iff.rfl rfl fun x hx => hx.step (e := .code) id id hstep

theorem start (h : Shows p g w a) (hc : w.kernel.control = .boot) :
    Shows p g { w with kernel := sched w.kernel } a := by
  have hinv := h.inv.start hc
  have hplaced := h.placed.sched
  have heq : sched w.kernel = { w.kernel with control := .loop } := by
    rw [sched, h.inv.inv.places.inited]
    rfl
  rw [heq] at hinv hplaced ⊢
  refine ⟨hplaced, hinv, h.queue, ?_⟩
  exact h.turn.mono rfl (by simp [hc]) rfl fun x hx => hx

/-- A process of a free slot is no thread yet. -/
theorem free (h : Shows p g w a) (hfree : (w.kernel.blk (p.proc i)).state = .free) :
    i ∉ a.threads ∧ some i ≠ w.sys.run := by
  have hqueue : i ∉ a.queue.map Prod.fst := by
    intro hmem
    have hready := h.inv.ready _ (List.mem_map_of_mem hmem)
    rw [hfree] at hready
    cases hready
  have hturn := h.turn
  rw [Threads.State.threads, List.mem_append, not_or]
  cases hcase : a.turn with
  | loop =>
    rw [hcase] at hturn
    exact ⟨⟨List.not_mem_nil, hqueue⟩, by simp [hturn.1]⟩
  | thread j back =>
    rw [hcase] at hturn
    obtain ⟨hj, huser, hcurr, -⟩ := hturn
    have hne : i ≠ j := by
      rintro rfl
      have hst := (h.inv.proc huser).2
      rw [hcurr, hfree] at hst
      cases hst
    exact ⟨⟨by simp [Threads.Turn.holder, hne], hqueue⟩, by simp [hj, hne]⟩

theorem create (h : Shows p g w a) (hi : procFindFree w.kernel = some (i : ℕ)) (entryPoint : Word) :
    ∃ a', Threads.Step a (.create i (p.layout.fresh w.sys.cpu.mem (some i) entryPoint)) a' ∧
      Shows p g { w with kernel := createdKernel p w.kernel i entryPoint.toNat } a' := by
  obtain ⟨-, hfree⟩ := procFindFree_spec h.inv.inv.places hi
  obtain ⟨hnew, hrun⟩ := h.free (h.placed.procAt i ▸ hfree)
  have hstep := Sys.Step.create (L := p.layout) w.sys (some i) entryPoint hrun rfl
  have hplaced : Placed p (createdKernel p w.kernel i entryPoint.toNat) :=
    (h.placed.create entryPoint.toNat).of_eq rfl rfl rfl
  refine ⟨_, .create a i _ hnew, ?_⟩
  rw [createdKernel_eq h.inv.inv.places hi h.placed.stack h.placed.start] at hplaced ⊢
  refine ⟨hplaced, ?_, ?_, ?_⟩
  · have hinv := (h.inv.fill hi entryPoint.toNat).setMem (procContext w.kernel.mem
      (p.layout.lo (some i)) (p.layout.slot (some i)) (p.layout.start entryPoint))
    rw [List.map_append, List.map_append, List.map_singleton, List.map_singleton, ← h.placed.procAt]
    exact hinv
  · intro q hq
    rcases List.mem_append.1 hq with hold | hlast
    · have hne : i ≠ q.1 := by
        rintro rfl
        exact hnew (List.mem_append_right _ (List.mem_map_of_mem hold))
      exact (h.queue q hold).over_create (fun heq => hne (Option.some.inj heq)) hstep
    · obtain rfl := List.mem_singleton.1 hlast
      exact Sleeps.of_create hstep
  · exact h.turn.mono rfl Iff.rfl rfl fun x hx => hx.over_create (Option.some_ne_none i) hstep

theorem dispatch (h : Shows p g w a) (hc : w.kernel.control = .loop)
    (hu : (schedRound w.kernel).control = .user)
    (hnew : (schedRound w.kernel).scheduler.proc = w.kernel.procAt i)
    (hcall : w.sys.Passes p.layout p.context ((schedRound w.kernel).scheduler.proc + offsetPc)) :
    ∃ a', Threads.Step a (.dispatch i (w.sys.context p.layout)
        (Sys.context p.layout ⟨callSwitch w.sys.cpu, some i⟩)) a' ∧
      Shows p g (.of (schedRound w.kernel) ⟨callSwitch w.sys.cpu, some i⟩) a' := by
  obtain ⟨queue, turn⟩ := a
  cases turn with
  | thread j back =>
    have huser := h.turn.2.1
    rw [hc] at huser
    cases huser
  | loop =>
    have hrun : w.run = none := h.turn.1
    cases queue with
    | nil =>
      rw [h.inv.inv.round_nil, hc] at hu
      cases hu
    | cons first q =>
      obtain ⟨j, c⟩ := first
      have hinv := h.inv
      simp only [List.map_cons] at hinv
      obtain ⟨hround, hproc, hcontrol, -⟩ := hinv.inv.round
      -- the process at the head of the ready list is the first of the queue
      obtain rfl : j = i := p.proc_injective (by rw [← hproc, hnew, h.placed.procAt])
      have hcalls : w.sys.Calls p.layout (some j) := by
        apply Sys.Passes.calls
        rw [hproc] at hcall
        have hself : w.sys.run = none := hrun
        rw [hself]
        exact hcall
      have hne : some j ≠ w.sys.run := by
        intro heq
        cases heq.trans hrun
      have hstep := Sys.Step.switch w.sys (some j) hne hcalls
      obtain ⟨-, hresumed⟩ := (h.queue (j, c) List.mem_cons_self).resumes hstep
      have hback := Sleeps.of_switch hstep
      rw [show w.sys.run = none from hrun] at hback
      rw [hresumed]
      refine ⟨_, .dispatch j c _ q, .of h.placed.round (hinv.round hc) ?_ ?_⟩
      · intro r hr
        have hne : some j ≠ some r.1 := by
          intro heq
          have hnd := (List.nodup_cons.1 hinv.inv.nodup_ready).1
          rw [Option.some.inj heq] at hnd
          exact hnd (List.mem_map_of_mem (List.mem_map_of_mem hr))
        exact (h.queue r (List.mem_cons_of_mem _ hr)).over_switch hne hstep
      · exact ⟨rfl, hcontrol, hproc, hback⟩

theorem yield (h : Shows p g w a) (hc : w.kernel.control = .user)
    (hcurr : w.kernel.scheduler.proc = w.kernel.procAt i)
    (hcall : w.sys.Passes p.layout (w.kernel.scheduler.proc + offsetPc) p.context) :
    ∃ a', Threads.Step a (.yield i (w.sys.context p.layout)
        (Sys.context p.layout ⟨callSwitch w.sys.cpu, none⟩)) a' ∧
      Shows p g (.of (schedYield w.kernel) ⟨callSwitch w.sys.cpu, none⟩) a' := by
  obtain ⟨queue, turn⟩ := a
  cases turn with
  | loop => exact absurd hc h.turn.2
  | thread j back =>
    obtain ⟨hrun, -, hproc, hback⟩ := h.turn
    have hrun : w.sys.run = some j := hrun
    obtain rfl : j = i := p.proc_injective (by rw [← hproc, hcurr, h.placed.procAt])
    have hcalls : w.sys.Calls p.layout none := by
      apply Sys.Passes.calls
      rw [hproc] at hcall
      rw [hrun]
      exact hcall
    have hne : none ≠ w.sys.run := by
      rw [hrun]
      exact (Option.some_ne_none j).symm
    have hstep := Sys.Step.switch w.sys none hne hcalls
    obtain ⟨-, hresumed⟩ := hback.resumes hstep
    have hleft := Sleeps.of_switch hstep
    rw [hrun] at hleft
    have hyielded := h.inv.yield hc
    rw [hproc] at hyielded
    rw [hresumed]
    refine ⟨_, .yield j back _ queue, .of h.placed.yield ?_ ?_ ?_⟩
    · rw [List.map_append, List.map_append]
      exact hyielded
    · intro r hr
      rcases List.mem_append.1 hr with hold | hlast
      · exact (h.queue r hold).over_switch (Option.some_ne_none _).symm hstep
      · obtain rfl := List.mem_singleton.1 hlast
        exact hleft
    · have hz := Places.ne_zero (h.inv.proc hc).1
      rw [schedYield_eq h.inv.inv.places hz]
      exact ⟨rfl, by simp⟩

/-- Every step of the kernel on the machine is one of threads that take turns. -/
theorem step (h : Shows p g w a) (hstep : World.Step p w e w') :
    ∃ a', Threads.Step a e a' ∧ Shows p g w' a' := by
  cases hstep with
  | code cpu hkeep => exact ⟨a, .code a, h.code hkeep⟩
  | start hc => exact ⟨a, .code a, h.start hc⟩
  | spin hc hu =>
    rw [h.inv.spin hu]
    exact ⟨a, .code a, h⟩
  | full entryPoint hc hi =>
    rw [procCreate_none hi]
    exact ⟨a, .code a, h⟩
  | create i entryPoint hc hi => exact h.create hi entryPoint
  | dispatch i hc hu hnew hcall => exact h.dispatch hc hu hnew hcall
  | yield i hc hcurr hcall => exact h.yield hc hcurr hcall

/-- A context with room on its stack can prepare a switch. -/
theorem exists_code (h : Shows p g w a) (d : Option (Fin PROC_MAX))
    (hroom : p.lo w.run + 20 ≤ (w.reg .esp).toNat) (hin : (w.reg .esp).toNat + 8 ≤ p.hi w.run) :
    ∃ u, World.Step p w .code u ∧ Shows p g u a ∧ (∃ m, u.kernel = { w.kernel with mem := m }) ∧
      u.sys.Passes p.layout (p.slot w.run) (p.slot d) := by
  obtain ⟨t, hstep, -, -, hcalls⟩ := Sys.exists_calls (L := p.layout) w.sys d hroom hin
  have hpasses := hcalls.passes
  cases hstep with
  | code cpu hkeep =>
    exact ⟨_, .code cpu hkeep, h.code hkeep, ⟨cpu.mem, rfl⟩, hpasses⟩

/-- The loop can give the turn to the first thread of the queue. -/
theorem exists_dispatch (h : Shows p g w ⟨(i, x) :: q, .loop⟩) (hc : w.kernel.control = .loop)
    (hroom : p.bootLo + 20 ≤ (w.reg .esp).toNat) (hin : (w.reg .esp).toNat + 8 ≤ p.bootHi) :
    ∃ u v left, World.Step p w .code u ∧ World.Step p u (.dispatch i left x) v ∧
      v.sys.cpu.saved = x.saved ∧ Shows p g v ⟨q, .thread i left⟩ := by
  have hrun : w.run = none := h.turn.1
  obtain ⟨u, hcode, hu, ⟨m, hm⟩, hpasses⟩ :=
    h.exists_code (some i) (by rwa [hrun]) (by rwa [hrun])
  have hinv := hu.inv
  simp only [List.map_cons] at hinv
  obtain ⟨-, hproc, huser, -⟩ := hinv.inv.round
  have hctl : u.kernel.control = .loop := by rw [hm, hc]
  have hnew : (schedRound u.kernel).scheduler.proc = u.kernel.procAt i := by
    rw [hu.placed.procAt, hproc]
  have hcall : u.sys.Passes p.layout p.context
      ((schedRound u.kernel).scheduler.proc + offsetPc) := by
    rw [hproc, ← p.slot_some, ← p.slot_none]
    rwa [hrun] at hpasses
  have hdispatch := World.Step.dispatch i hctl huser hnew hcall
  obtain ⟨a', hstep, hv⟩ := hu.step hdispatch
  generalize hnext : World.of (schedRound u.kernel) ⟨callSwitch u.sys.cpu, some i⟩ = v
    at hdispatch hv
  have hsys : v.sys = ⟨callSwitch u.sys.cpu, some i⟩ := by rw [← hnext, World.sys_of]
  have hsaved : v.sys.cpu.saved = (v.sys.context p.layout).saved := rfl
  rw [← hsys] at hstep hdispatch
  cases hstep with
  | dispatch => exact ⟨u, v, _, hcode, hdispatch, hsaved, hv⟩

/-- A thread can yield. -/
theorem exists_yield (h : Shows p g w ⟨q, .thread i x⟩)
    (hroom : p.lo (some i) + 20 ≤ (w.reg .esp).toNat)
    (hin : (w.reg .esp).toNat + 8 ≤ p.hi (some i)) :
    ∃ u v left, World.Step p w .code u ∧ World.Step p u (.yield i left x) v ∧
      Shows p g v ⟨q ++ [(i, left)], .loop⟩ := by
  have hrun : w.run = some i := h.turn.1
  obtain ⟨u, hcode, hu, -, hpasses⟩ := h.exists_code none (by rwa [hrun]) (by rwa [hrun])
  obtain ⟨-, huser, hproc, -⟩ := hu.turn
  have hcurr : u.kernel.scheduler.proc = u.kernel.procAt i := by
    rw [hu.placed.procAt, hproc]
  have hcall : u.sys.Passes p.layout (u.kernel.scheduler.proc + offsetPc) p.context := by
    rw [hproc, ← p.slot_some, ← p.slot_none]
    rwa [hrun] at hpasses
  have hyield := World.Step.yield i huser hcurr hcall
  obtain ⟨a', hstep, hv⟩ := hu.step hyield
  cases hstep with
  | yield => exact ⟨u, _, _, hcode, hyield, hv⟩

end Shows

/-! ## Runs -/

theorem shows_boot (p : Placement) (g : Places) (htable : g.table = p.procTable) (raw : Kernel)
    (reg : Reg → Word) (eip : Word) : Shows p g (.boot p g raw reg eip) .start := by
  have hinv := RobinInv.boot g { raw with switchKernToUser := p.switchKernToUser.toNat } p.stack
  refine ⟨⟨?_, ?_, ?_⟩, hinv, fun q hq => absurd hq List.not_mem_nil, rfl, ?_⟩
  · exact hinv.inv.places.table.trans htable
  · simp only [World.boot, bootKernel_eq, procInit]
  · simp only [World.boot, bootKernel_eq, procInit]
  · simp [World.boot, bootKernel_control]

/-- In every run of the kernel on the machine the processes are threads that take turns: the
contexts that `context_switch` resumes, registers and stacks, are those that it left or that
`proc_create` made, thread by thread in the order in which they were queued on the ready list. -/
theorem kernel_refines_threads (p : Placement) (g : Places) (htable : g.table = p.procTable)
    (raw : Kernel) (reg : Reg → Word) (eip : Word)
    {tr : List (Threads.Event (Fin PROC_MAX) Context)}
    (htr : Trace (World.Step p) (.boot p g raw reg eip) tr w) :
    ∃ a, Trace Threads.Step .start tr a ∧
      ReadyRing w.kernel ((a.queue.map Prod.fst).map p.proc) ∧
      tr.flatMap Threads.Event.put = tr.flatMap Threads.Event.taken ++ a.queue ∧
      tr.flatMap Threads.Event.loopLeft = tr.flatMap Threads.Event.loopResumed ++ a.turn.kept := by
  have hsim (x : World) (e : Threads.Event (Fin PROC_MAX) Context) (y : World)
      (t : Threads.State (Fin PROC_MAX) Context) (h : Shows p g x t) (hstep : World.Step p x e y) :
      ∃ t', Threads.Step t e t' ∧ Shows p g y t' := h.step hstep
  obtain ⟨a, ha, hw⟩ := trace_sim hsim htr (shows_boot p g htable raw reg eip)
  obtain ⟨hqueue, hkept⟩ := Threads.resumed_in_order ha
  exact ⟨a, ha, hw.inv.inv.readyRing, hqueue, hkept⟩

/-- The table and the stacks of `main`. -/
def mainPlacement : Placement where
  bootLo := 0xC0090000
  bootHi := 0xC00A0000
  context := 0xC0200014
  procTable := 0xC0110000
  stack := 0xC2001000
  switchKernToUser := 0xC0100010
  boot_lt := by decide
  stack_lt := by decide
  context_lt := by decide
  table_lt := by decide
  boot_stack := by decide
  boot_context := by decide
  boot_table := by decide
  stack_context := by decide
  stack_table := by decide
  context_table := by decide

/-- A process of `main` gets the CPU and yields. -/
theorem kernel_refines_threads_main : ∃ (i : Fin PROC_MAX) (made left first : Context) (w : World)
    (tr : List (Threads.Event (Fin PROC_MAX) Context)),
    tr = [.create i made, .code, .code, .dispatch i left made, .code, .yield i first left] ∧
    ∃ a, Trace Threads.Step .start tr a ∧
      ReadyRing w.kernel ((a.queue.map Prod.fst).map mainPlacement.proc) ∧
      tr.flatMap Threads.Event.put = tr.flatMap Threads.Event.taken ++ a.queue ∧
      tr.flatMap Threads.Event.loopLeft = tr.flatMap Threads.Event.loopResumed ++ a.turn.kept := by
  let i : Fin PROC_MAX := ⟨0, by decide⟩
  let w₀ := World.boot mainPlacement mainPlaces rawKernel (fun _ => 0xC009FF00) 0xC0100100
  have h₀ : Shows mainPlacement mainPlaces w₀ .start := shows_boot _ _ rfl _ _ _
  have hboot : w₀.kernel.control = .boot := bootKernel_control _ _ _
  have hi : procFindFree w₀.kernel = some (i : ℕ) := by decide +kernel
  have hcreate := World.Step.create (p := mainPlacement) i 0xC0101000 (Or.inl hboot) hi
  obtain ⟨a₁, hs₁, h₁⟩ := h₀.step hcreate
  cases hs₁
  let k := createdKernel mainPlacement w₀.kernel i (0xC0101000 : Word).toNat
  have hctl : k.control = .boot := by decide +kernel
  have hstart := World.Step.start (p := mainPlacement) (w := { w₀ with kernel := k }) hctl
  have h₂ := h₁.start hctl
  have hloop : (sched k).control = .loop := by decide +kernel
  obtain ⟨u, v, left, hcode, hdispatch, hsaved, h₃⟩ := Shows.exists_dispatch h₂ hloop
    (by decide : 0xC0090000 + 20 ≤ (0xC009FF00 : Word).toNat)
    (by decide : (0xC009FF00 : Word).toNat + 8 ≤ 0xC00A0000)
  have hesp : v.reg .esp = 0xC20017B0 := by
    have hfresh : v.reg .esp = BitVec.ofNat 32 (mainPlacement.hi (some i) - sizeofIntrContext) :=
      congrArg Saved.esp hsaved
    rw [hfresh]
    decide
  obtain ⟨u', v', first, hcode', hyield, -⟩ := h₃.exists_yield (by rw [hesp]; decide)
    (by rw [hesp]; decide)
  have htr := Trace.cons hcreate (.cons hstart (.cons hcode (.cons hdispatch (.cons hcode'
    (.cons hyield (.nil v'))))))
  exact ⟨i, _, left, first, v', _, rfl,
    kernel_refines_threads mainPlacement mainPlaces rfl _ _ _ htr⟩

end Switch

end YohdaOS.P32
