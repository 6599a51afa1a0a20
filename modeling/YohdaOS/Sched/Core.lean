import YohdaOS.Lib.Memory
import YohdaOS.Links
import YohdaOS.Machine

/-!
# Processes and the scheduler

archtecture/x86/p32/proc.c and archtecture/x86/p32/sched.c.  The process control blocks are typed
data under their addresses, the list nodes inside them are addresses of `Links`, and the stacks with
the saved contexts are bytes of `mem`.  A pointer that is NULL is address 0.
-/

namespace YohdaOS.P32

open ByteMem

def PROC_MAX : ℕ := 128

def PROC_STACK_SIZE : ℕ := 2048

/-- `enum PROC_STATE` -/
inductive ProcState where
  | free
  | ready
  | run
  | block
  | term
deriving DecidableEq, Repr

/-- `struct proc_ctrl_blk` without its list node -/
structure ProcCtrlBlk where
  id : ℕ
  state : ProcState
  stack : ℕ
  ic : ℕ
  pc : ℕ
deriving DecidableEq, Repr

def sizeofProcCtrlBlk : ℕ := 28

def sizeofProcContext : ℕ := 20

def sizeofIntrContext : ℕ := 80

/-- The offset of the field `eip` of `struct proc_context`. -/
def offsetEip : ℕ := 16

/-- The address of the field `node` of the process control block at `proc`. -/
def nodeOf (proc : ℕ) : ℕ := proc + 20

/-- `container_of(node, struct proc_ctrl_blk, node)` -/
def containerOf (node : ℕ) : ℕ := toU32 ((node : ℤ) - 20)

/-- `n--` on a `uint32_t` -/
def decr (n : ℕ) : ℕ := toU32 ((n : ℤ) - 1)

/-- `struct proc_mgmt`; `procTable` is the address of the table. -/
structure ProcMgmt where
  procTable : ℕ
  stack : ℕ
  pid : ℕ
  inited : Bool

/-- `struct scheduler` without the saved context -/
structure Scheduler where
  inited : Bool
  readyList : ℕ
  readys : ℕ
  blockList : ℕ
  blocks : ℕ
  proc : ℕ

/-- Who has the CPU: the code before `sched()`, the loop of `_sched`, the process
`scheduler.proc`, or the code after a `sched()` that came back. -/
inductive Control where
  | boot
  | loop
  | user
  | idle
deriving DecidableEq, Repr

structure Kernel where
  mem : Mem
  links : Links
  /-- the fields of the `struct proc_ctrl_blk` at an address -/
  blk : ℕ → ProcCtrlBlk
  procMgr : ProcMgmt
  scheduler : Scheduler
  control : Control
  /-- the address of the code at that label -/
  switchKernToUser : ℕ

namespace Kernel

def setState (s : Kernel) (proc : ℕ) (st : ProcState) : Kernel :=
  { s with blk := Function.update s.blk proc { s.blk proc with state := st } }

/-- `&proc_mgr.proc_table[i]` -/
def procAt (s : Kernel) (i : ℕ) : ℕ := s.procMgr.procTable + sizeofProcCtrlBlk * i

end Kernel

/-! ## sched.c -/

def _schedAddReady (s : Kernel) (proc : ℕ) : Kernel :=
  { s with
    links := (listAdd s.links s.scheduler.readyList (nodeOf proc)).2
    scheduler := { s.scheduler with readys := u32 (s.scheduler.readys + 1) } }

def schedAddReady (s : Kernel) (proc : ℕ) : Kernel :=
  if !s.scheduler.inited then s
  else if proc = 0 then s
  else _schedAddReady s proc

def schedAddBlock (s : Kernel) (proc : ℕ) : Kernel :=
  if !s.scheduler.inited then s
  else if proc = 0 then s
  else { s with links := (listAdd s.links s.scheduler.blockList (nodeOf proc)).2 }

def schedDelReady (s : Kernel) (proc : ℕ) : Kernel :=
  if !s.scheduler.inited then s
  else if proc = 0 then s
  else if (s.blk proc).state ≠ .ready then s
  else { s with
    links := (listDel s.links s.scheduler.readyList (nodeOf proc)).2
    scheduler := { s.scheduler with readys := decr s.scheduler.readys } }

/-- `sched_exit`, `sched_timer` and the first half of `sched_yield`: the current process gets a
state and goes to the ready list. -/
def schedRequeue (st : ProcState) (s : Kernel) : Kernel :=
  if !s.scheduler.inited then s
  else if s.scheduler.proc = 0 then s
  else _schedAddReady (s.setState s.scheduler.proc st) s.scheduler.proc

def schedExit (s : Kernel) : Kernel := schedRequeue .term s

def schedTimer (s : Kernel) : Kernel := schedRequeue .ready s

/-- `sched_yield` up to the resumption of the scheduler's context. -/
def schedYield (s : Kernel) : Kernel :=
  if !s.scheduler.inited then s
  else if s.scheduler.proc = 0 then s
  else { schedRequeue .ready s with control := .loop }

def schedSleep (s : Kernel) : Kernel :=
  if !s.scheduler.inited then s
  else if s.scheduler.proc = 0 then s
  else schedAddBlock (s.setState s.scheduler.proc .block) s.scheduler.proc

/-- One round of the loop of `_sched`, up to the switch to the process it picks. -/
def schedRound (s : Kernel) : Kernel :=
  if s.scheduler.readys = 0 then s
  else
    let r := listGet s.links s.scheduler.readyList
    let node := r.1
    let s := { s with links := r.2 }
    if node = 0 then { s with control := .idle }
    else
      let new := containerOf node
      if new = 0 then { s with control := .idle }
      else
        let s := { s with
          scheduler := { s.scheduler with readys := decr s.scheduler.readys } }
        let s := s.setState new .run
        { s with scheduler := { s.scheduler with proc := new }, control := .user }

/-- `sched` -/
def sched (s : Kernel) : Kernel :=
  if !s.scheduler.inited then { s with control := .idle } else { s with control := .loop }

/-- `sched_init`, where the two calls of `yalloc` return `ready` and `block`. -/
def schedInit (s : Kernel) (ready block : ℕ) : Kernel :=
  let s := { s with scheduler := ⟨false, ready, 0, 0, 0, 0⟩ }
  if ready = 0 then s
  else
    let s := { s with scheduler := { s.scheduler with blockList := block } }
    if block = 0 then s
    else { s with
      links := listInitHead (listInitHead s.links ready) block
      scheduler := { s.scheduler with readys := 0, blocks := 0, inited := true } }

/-! ## proc.c -/

/-- The first slot of the table that is free. -/
def procFindFree (s : Kernel) : Option ℕ :=
  (List.range PROC_MAX).find? fun i => (s.blk (s.procAt i)).state = .free

/-- `proc_create` on slot `i` up to the call of `sched_add_ready`. -/
def procFill (s : Kernel) (i entryPoint : ℕ) : Kernel :=
  let stack := s.procMgr.stack + i * PROC_STACK_SIZE
  let ic := stack + PROC_STACK_SIZE - sizeofIntrContext
  let pc := ic - sizeofProcContext
  let eip := if entryPoint = 0 then s.switchKernToUser else entryPoint
  { s with
    blk := Function.update s.blk (s.procAt i) ⟨s.procMgr.pid, .ready, stack, ic, pc⟩
    procMgr := { s.procMgr with pid := u32 (s.procMgr.pid + 1) }
    mem := store32 (fill s.mem pc 0 sizeofProcContext) (pc + offsetEip) eip }

def procCreate (s : Kernel) (entryPoint : ℕ) : ℕ × Kernel :=
  if !s.procMgr.inited then (0, s)
  else
    match procFindFree s with
    | none => (0, s)
    | some i =>
      let proc := s.procAt i
      (proc, schedAddReady (procFill s i entryPoint) proc)

def procExit (s : Kernel) (proc : ℕ) : Kernel :=
  if proc = 0 then s else s.setState proc .free

/-- `proc_init`, where the call of `yalloc` returns `stack`; it goes on with a NULL stack.  The `memset`
is given `proc_mgr` in place of its address, and is read as clearing it. -/
def procInit (s : Kernel) (stack : ℕ) : Kernel :=
  let procTable := s.procMgr.procTable
  { s with
    blk := fun a =>
      if procTable ≤ a ∧ a < procTable + sizeofProcCtrlBlk * PROC_MAX then ⟨0, .free, 0, 0, 0⟩
      else s.blk a
    procMgr := ⟨procTable, stack, 0, true⟩ }

end YohdaOS.P32
