import YohdaOS.Buddy.Lazy
import YohdaOS.Pool.Core

/-!
# mmi.c and mm.c of the 32-bit kernel

The two allocators behind `yalloc` and `yfree`: the buddy is the primary memory management, the
pools are the secondary one.  Calls through `pm_if` and `sm_if` are written as the functions these
interfaces hold.
-/

namespace YohdaOS

/-- `MM_PRI_CHUNK_LLC` -/
def mmGetPriLlc : ℤ := 2048

/-- The linker symbol `_virt_base`. -/
def virtBase : ℕ := 0xC0000000

def vmmPhyToVirt (phy : ℕ) : ℕ := u32 (phy + virtBase)

inductive Where where
  | err
  | pri
  | sec
deriving DecidableEq, Repr

def mmWhereIsAddr (s : Mm) (addr : ℕ) : Where :=
  if addr = 0 then .err
  else if addr ≥ s.secBase ∧ addr < u32 (s.secBase + toU32 s.secSize) then .sec
  else .pri

/-- `mm_alloc` takes an `int`. -/
def yalloc (s : Mm) (size : ℤ) : Ptr × Mm :=
  if size < 1 then (.code (-1), s)
  else
    let r := if size ≥ mmGetPriLlc then budAlloc P32.listOps s (toInt size)
      else plAlloc s (toInt size)
    if r.1.val = 0 then (.code (-8), r.2) else r

def yfree (s : Mm) (addr : ℕ) : Option Mm :=
  if addr = 0 then some s
  else
    match mmWhereIsAddr s addr with
    | .pri => budFree P32.listOps s addr
    | .sec => some (plFree s addr)
    | .err => some s

def mmiInit (s : Mm) (base : ℕ) (size : ℤ) : ℤ × Mm :=
  if base = 0 then (-5, s)
  else if size < 1 then (-6, s)
  else
    let r := budInit s base (toInt size)
    let rmd := r.1
    if rmd < 0 then (-8, r.2)
    else
      let secSize := plGetInitSize
      if secSize < 0 then (-9, r.2)
      else
        let r := budAlloc P32.listOps r.2 (toInt secSize)
        let plBase := r.1.val
        if plBase = 0 then (-10, r.2)
        else
          let secSize := budRndup r.2 (toInt secSize)
          if secSize < 0 then (-14, r.2)
          else
            let r := plInit r.2 plBase secSize
            let rmd := rmd + r.1
            if rmd < 0 then (-18, r.2) else (toInt rmd, r.2)

def mmInit (s : Mm) (heapSize : ℤ) : ℤ × Mm :=
  if heapSize < MM_HEAP_MIN_SIZE then (-1, s)
  else
    let r := mmiInit s (vmmPhyToVirt MM_BASE) heapSize
    if r.1 < 0 then (-1, r.2) else (0, r.2)

end YohdaOS
