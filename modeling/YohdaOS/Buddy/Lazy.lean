import YohdaOS.Buddy.Init

/-!
# The lazy pages of buddy.c

Requests of at most a page come from a list of pages that is filled in batches.  The functions take
the list functions of their kernel as a parameter: `archtecture/x86/p32/buddy.c` and `mm/buddy.c`
are the same text here, their list.c are not.
-/

namespace YohdaOS

def MM_BASE : ℕ := 0x2000000

/-- `sizeof(struct lazy_page)`; its node comes first. -/
def sizeofLazyPage : ℕ := 12

/-- `IS_MEM_ERR` -/
def isMemErr (s : Mm) (x : ℕ) : Bool :=
  x = 0 ∨ x ≥ MM_BASE + s.bm.heapSize ∨ x < MM_BASE

theorem isMemErr_congr {s s' : Mm} (h : s'.bm = s.bm) (x : ℕ) :
    isMemErr s' x = isMemErr s x := by
  rw [isMemErr, isMemErr, h]

theorem isMemErr_eq_false {s : Mm} {x : ℕ} :
    isMemErr s x = false ↔ x ≠ 0 ∧ x < MM_BASE + s.bm.heapSize ∧ MM_BASE ≤ x := by
  unfold isMemErr
  rw [decide_eq_false_iff_not]
  omega

section

variable (ops : ListOps)

/-- The loop of `bud_lazy_alloc` over the pages that remain, from `pages[i]` on; it returns whether
it failed. -/
def budLazyRefill (pages : ℕ) : ℕ → ℕ → Mm → Bool × Mm
  | 0, _, s => (false, s)
  | fuel + 1, i, s =>
    let page := pages + sizeofLazyPage * i
    let r := _budAlloc s MM_PAGE_SIZE
    let s := { r.2 with pageAddr := Function.update r.2.pageAddr page r.1.val }
    if isMemErr s r.1.val then (true, s)
    else
      let s := { s with
        links := (ops.add s.links s.lazy.frees page).2
        lazy := { s.lazy with fnum := s.lazy.fnum + 1 } }
      budLazyRefill pages fuel (i + 1) s

/-- The second half of `bud_lazy_alloc`: a page moves from one list to the other. -/
def budLazyTake (s : Mm) : Ptr × Mm :=
  let r := ops.get s.links s.lazy.frees
  let node := r.1
  let s := { s with links := r.2 }
  if isMemErr s node then (.code 0, s)
  else
    let s := { s with
      links := (ops.add s.links s.lazy.inuses node).2
      lazy := { s.lazy with fnum := s.lazy.fnum - 1, unum := s.lazy.unum + 1 } }
    (.addr (s.pageAddr node), s)

def budLazyAlloc (s : Mm) : Ptr × Mm :=
  if s.lazy.fnum = 0 then
    let batch := s.lazy.batch
    let r := _budAlloc s (toInt (sizeofLazyPage * batch))
    let s := r.2
    if isMemErr s r.1.val then (.code 0, s)
    else
      let r := budLazyRefill ops r.1.val batch.toNat 0 s
      if r.1 then (.code 0, r.2) else budLazyTake ops r.2
  else budLazyTake ops s

def budAlloc (s : Mm) (size : ℤ) : Ptr × Mm :=
  if size < 1 then (.code (-EINVAL), s)
  else
    let r := if size > MM_PAGE_SIZE then _budAlloc s size else budLazyAlloc ops s
    if r.1.val = 0 then (.code (-4), r.2) else r

/-- The search of `bud_lazy_free` through the pages in use, at `node`; `lp` is the page looked at
last.  It ends with an error, or with the node it stopped at and that page. -/
def budLazyFind (s : Mm) (addr : ℕ) : ℕ → ℕ → ℕ → Option (Except ℤ (ℕ × ℕ))
  | 0, _, _ => none
  | fuel + 1, node, lp =>
    if node = 0 ∨ node = s.lazy.inuses then some (.ok (node, lp))
    else if isMemErr s node then some (.error (-8))
    else if s.pageAddr node = addr then some (.ok (node, node))
    else budLazyFind s addr fuel (s.links.next node) node

/-- The loop of `bud_lazy_free` that gives pages back. -/
def budLazyRelease : ℕ → Mm → ℤ × Mm
  | 0, s => (0, s)
  | batch + 1, s =>
    let r := ops.get s.links s.lazy.frees
    let node := r.1
    let s := { s with links := r.2 }
    if isMemErr s node then (-8, s)
    else
      let s := _budFree s (s.pageAddr node)
      budLazyRelease batch { s with lazy := { s.lazy with fnum := s.lazy.fnum - 1 } }

/-- A walk of more steps than there are addresses goes round for ever: `none` means that the call
does not return. -/
def budLazyFree (s : Mm) (addr : ℕ) : Option (ℤ × Mm) :=
  if isMemErr s addr then some (-1, s)
  else if s.lazy.unum = 0 then some (-4, s)
  else
    match budLazyFind s addr 4294967296 (s.links.next s.lazy.inuses) 0 with
    | none => none
    | some (.error e) => some (e, s)
    | some (.ok (node, lp)) =>
      if s.pageAddr lp ≠ addr then some (-12, s)
      else
        let s := { s with links := (ops.del s.links s.lazy.inuses node).2 }
        let s := { s with
          links := (ops.add s.links s.lazy.frees node).2
          lazy := { s.lazy with fnum := s.lazy.fnum + 1, unum := s.lazy.unum - 1 } }
        if s.lazy.fnum > s.lazy.wmk then some (budLazyRelease ops s.lazy.batch.toNat s)
        else some (0, s)

def budFree (s : Mm) (addr : ℕ) : Option Mm :=
  if addr = 0 ∨ s.bm.heapBase > addr then some s
  else
    let chunk := budGetChunk s (ByteMem.load8 s.mem (budDecode s addr))
    if chunk < 0 then some s
    else if chunk ≤ MM_PAGE_SIZE then (budLazyFree ops s addr).map Prod.snd
    else some (_budFree s addr)

end

end YohdaOS
