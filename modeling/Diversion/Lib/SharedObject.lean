import Diversion.Lib.Pool

/-!
# Shared memory objects under one name

What `shm_open` and the calls on its descriptors do with the objects that were created under one
name. The name is linked to one object at most. An object has length 0 until it is truncated, and
outlives its name : whoever has opened it keeps it. Descriptors are numbered as they are opened.

An operation is `none` where the system call fails for what the objects are (`EEXIST`, `ENOENT`,
`EBADF`); other failures are for the program that uses them. `IsOpen` is what a program knows
of its descriptors, and the lemmas are what each operation does to it.
-/

/-- A name of a shared memory object with all objects and descriptors made through it. -/
structure SharedObject where
  /-- The object the name is linked to. -/
  linked : Option ℕ
  /-- The lengths of the objects, in the order they were created. -/
  lengths : List ℕ
  /-- The objects the descriptors are open on, `none` for one that was closed. -/
  fds : List (Option ℕ)
deriving DecidableEq, Repr

namespace SharedObject

/-- Nothing has been created under the name. -/
def init : SharedObject :=
  ⟨none, [], []⟩

/-- `shm_open` with `O_CREAT | O_EXCL`. -/
def create (s : SharedObject) : Option (ℕ × SharedObject) :=
  if s.linked = none then
    some (s.fds.length, {
      linked := some s.lengths.length
      lengths := s.lengths ++ [0]
      fds := s.fds ++ [some s.lengths.length] })
  else none

/-- `shm_open` without `O_CREAT`. -/
def reopen (s : SharedObject) : Option (ℕ × SharedObject) :=
  s.linked.map fun object => (s.fds.length, { s with fds := s.fds ++ [some object] })

/-- The object a descriptor is open on. -/
def object (s : SharedObject) (fd : ℕ) : Option ℕ :=
  (s.fds[fd]?).join

/-- Set the length of the object of a descriptor. -/
def ftruncate (s : SharedObject) (fd length : ℕ) : Option SharedObject :=
  (s.object fd).map fun object => { s with lengths := s.lengths.set object length }

/-- The length `fstat` reports. -/
def fstat (s : SharedObject) (fd : ℕ) : Option ℕ :=
  (s.object fd).bind fun object => s.lengths[object]?

/-- The descriptor is gone, and its object stays. -/
def close (s : SharedObject) (fd : ℕ) : SharedObject :=
  { s with fds := s.fds.set fd none }

/-- The name is gone, and the object stays. -/
def unlink (s : SharedObject) : SharedObject :=
  { s with linked := none }

/-- The number of descriptors that were opened and not closed. -/
def openCount (s : SharedObject) : ℕ :=
  s.fds.countP Option.isSome

/-- The descriptor is open on the object. -/
def IsOpen (s : SharedObject) (fd object : ℕ) : Prop :=
  s.object fd = some object

variable {s t : SharedObject} {fd fd' o : ℕ}

theorem isOpen_iff : s.IsOpen fd o ↔ s.fds[fd]? = some (some o) :=
  Option.join_eq_some_iff

/-- With `O_EXCL` a new object is created, and only where the name is free. -/
theorem create_eq_some : s.create = some (fd, t) ↔ s.linked = none ∧ fd = s.fds.length ∧
    t = ⟨some s.lengths.length, s.lengths ++ [0], s.fds ++ [some s.lengths.length]⟩ := by
  simp only [create, Option.ite_none_right_eq_some, Option.some.injEq, Prod.mk.injEq,
    eq_comm (a := fd), eq_comm (a := t)]

/-- Otherwise the linked object is opened once more. -/
theorem reopen_eq_some : s.reopen = some (fd, t) ↔ ∃ o, s.linked = some o ∧ fd = s.fds.length ∧
    t = { s with fds := s.fds ++ [some o] } := by
  simp only [reopen, Option.map_eq_some_iff, Prod.mk.injEq, eq_comm (a := fd), eq_comm (a := t)]

/-- An open descriptor has an object to set the length of. -/
theorem ftruncate_of_isOpen (h : s.IsOpen fd o) (length : ℕ) :
    s.ftruncate fd length = some { s with lengths := s.lengths.set o length } := by
  rw [ftruncate, h, Option.map_some]

theorem fstat_of_isOpen (h : s.IsOpen fd o) : s.fstat fd = s.lengths[o]? := by
  rw [fstat, h, Option.bind_some]

/-- A descriptor stays open while others are opened. -/
theorem IsOpen.append (h : s.IsOpen fd o) (fds : List (Option ℕ)) (hfds : t.fds = s.fds ++ fds) :
    t.IsOpen fd o := by
  rw [isOpen_iff] at h ⊢
  rw [hfds, List.getElem?_append_left (List.getElem?_eq_some_iff.1 h).1, h]

theorem isOpen_concat (hfds : t.fds = s.fds ++ [some o]) : t.IsOpen s.fds.length o := by
  rw [isOpen_iff, hfds, List.getElem?_concat_length]

/-- A descriptor stays open while another one is closed. -/
theorem IsOpen.close (h : s.IsOpen fd o) (hne : fd' ≠ fd) : (s.close fd').IsOpen fd o := by
  rw [isOpen_iff] at h ⊢
  rw [SharedObject.close, List.getElem?_set_ne hne, h]

theorem IsOpen.lt (h : s.IsOpen fd o) : fd < s.fds.length :=
  (List.getElem?_eq_some_iff.1 (isOpen_iff.1 h)).1

theorem openCount_append (hfds : t.fds = s.fds ++ [some o]) : t.openCount = s.openCount + 1 := by
  rw [openCount, hfds, List.countP_append]
  rfl

/-- Closing an open descriptor. -/
theorem openCount_close (h : s.IsOpen fd o) : (s.close fd).openCount + 1 = s.openCount :=
  Pool.countP_set_add (p := Option.isSome) (b := none) (isOpen_iff.1 h)

end SharedObject
