import Mathlib.Tactic

/-!
# list.c and archtecture/x86/p32/list.c

The two link fields of every `struct list_node`, as maps from node addresses.  The 32-bit kernel
has its own copy of the list functions; `ListOps` is the interface the callers see.  A function
that returns NULL returns address 0.
-/

namespace YohdaOS

/-- The `next` and `prev` fields of the nodes. -/
structure Links where
  next : ℕ → ℕ
  prev : ℕ → ℕ

namespace Links

def setNext (l : Links) (n v : ℕ) : Links := { l with next := Function.update l.next n v }

def setPrev (l : Links) (n v : ℕ) : Links := { l with prev := Function.update l.prev n v }

@[simp] theorem next_setPrev (l : Links) (n v : ℕ) : (l.setPrev n v).next = l.next := rfl

@[simp] theorem prev_setNext (l : Links) (n v : ℕ) : (l.setNext n v).prev = l.prev := rfl

@[simp] theorem next_setNext (l : Links) (n v : ℕ) :
    (l.setNext n v).next = Function.update l.next n v := rfl

@[simp] theorem prev_setPrev (l : Links) (n v : ℕ) :
    (l.setPrev n v).prev = Function.update l.prev n v := rfl

end Links

/-- The list functions of one kernel. -/
structure ListOps where
  add : Links → ℕ → ℕ → ℕ × Links
  del : Links → ℕ → ℕ → ℕ × Links
  get : Links → ℕ → ℕ × Links

def listInitHead (l : Links) (head : ℕ) : Links := (l.setPrev head head).setNext head head

/-! ## list.c -/

/-- The 32-bit kernel's copy is the same. -/
def listAddHead (l : Links) (head new : ℕ) : ℕ × Links :=
  if head = 0 ∨ new = 0 then (0, l)
  else
    let l := l.setPrev new head
    let l := l.setNext new (l.next head)
    let l := l.setPrev (l.next head) new
    (new, l.setNext head new)

def listAdd (l : Links) (head new : ℕ) : ℕ × Links :=
  if head = 0 ∨ new = 0 then (0, l)
  else
    let l := l.setPrev new (l.prev head)
    let l := l.setNext new head
    let l := l.setNext (l.prev head) new
    (new, l.setPrev head new)

def listDel (l : Links) (head node : ℕ) : ℕ × Links :=
  if head = 0 ∨ node = 0 then (0, l)
  else if l.prev head = head ∧ l.next head = head then (0, l)
  else
    let l := l.setPrev (l.next node) (l.prev node)
    (node, l.setNext (l.prev node) (l.next node))

def listGet (l : Links) (head : ℕ) : ℕ × Links :=
  if head = 0 then (0, l)
  else if l.prev head = head ∧ l.next head = head then (0, l)
  else
    let node := l.next head
    let l := l.setNext head (l.next (l.next head))
    -- `head->next` is already the second node here
    (node, l.setPrev (l.next (l.next head)) head)

def listOps : ListOps := ⟨listAdd, listDel, listGet⟩

/-! ## archtecture/x86/p32/list.c -/

namespace P32

def listAdd (l : Links) (head new : ℕ) : ℕ × Links :=
  if head = 0 ∨ new = 0 then (0, l)
  else if l.prev head = 0 ∨ l.next head = 0 then (0, l)
  else
    let l := l.setPrev new (l.prev head)
    let l := l.setNext new head
    let l := l.setNext (l.prev head) new
    (new, l.setPrev head new)

def listGet (l : Links) (head : ℕ) : ℕ × Links :=
  if head = 0 then (0, l)
  else if l.prev head = head ∧ l.next head = head then (0, l)
  else
    let node := l.next head
    let l := l.setNext head (l.next (l.next head))
    (node, l.setPrev (l.next head) head)

/-- The 32-bit kernel's copy of `list_del` is the common one. -/
def listOps : ListOps := ⟨listAdd, listDel, listGet⟩

end P32

end YohdaOS
