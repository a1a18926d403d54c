/-
  Revo.Util.Prevector

  `prevector<N, T>` of `prevector.h` with the default `Size = uint32_t`: a
  vector that keeps up to `N` elements in place and moves them to the heap
  beyond that.  One field, `_size`, holds both the count and the form: in the
  direct form it is the count (at most `N`), in the indirect form the count
  plus `N + 1`.  Every count is a `uint32_t` here as in the source, so the
  model wraps where the code does.

  Memory is a map of cells (`Revo.Lib.Cells`).  The source's union of the
  in-place array and the heap pointer is kept as two memories, `direct` and
  `indirect`, of which `is_direct()` picks the one that `item_ptr` reads; an
  iterator is the index of its cell.

  The operations follow the source line by line, in its order: where the code
  takes `item_ptr` before it changes `_size` the model takes `items` of the
  state before, and after where it takes it after.  `PrevectorOp.step` puts
  the operations on a store of prevectors (copy and move construction and
  assignment, and `swap`, are between two of them); `PrevectorOp.apply` is
  the list model the store is compared with.
-/

import Revo.Lib.Cells

namespace Revo

/-- The fields of a `prevector`: `_size`, the in-place cells, and the heap
    cells and `capacity` of `_union.indirect_contents`. -/
structure Prevector (T : Type) where
  _size : UInt32
  direct : Nat → Option T
  indirect : Nat → Option T
  indirectCapacity : UInt32

namespace Prevector

variable {T : Type} (N : UInt32)

/-- `prevector()`: `_size = 0` and the union zeroed; no cell holds a `T`. -/
def empty : Prevector T := ⟨0, fun _ => none, fun _ => none, 0⟩

def isDirect (s : Prevector T) : Bool := s._size ≤ N

def size (s : Prevector T) : UInt32 := if isDirect N s then s._size else s._size - N - 1

/-- `capacity()`, a `size_t`. -/
def capacity (s : Prevector T) : Nat := if isDirect N s then N.toNat else s.indirectCapacity.toNat

/-- The in-place cells for `direct = true`, else the heap cells. -/
def cells (direct : Bool) (s : Prevector T) : Nat → Option T := if direct then s.direct else s.indirect

def setCells (direct : Bool) (s : Prevector T) (m : Nat → Option T) : Prevector T :=
  if direct then { s with direct := m } else { s with indirect := m }

/-- The memory that `item_ptr` points into. -/
def items (s : Prevector T) : Nat → Option T := cells (isDirect N s) s

/-- A write through `item_ptr`. -/
def setItems (s : Prevector T) (m : Nat → Option T) : Prevector T := setCells (isDirect N s) s m

/-- The elements `begin() .. end()`. -/
def elements (s : Prevector T) : List (Option T) := (List.range (size N s).toNat).map (items N s)

def changeCapacity (s : Prevector T) (new_capacity : UInt32) : Prevector T :=
  if new_capacity ≤ N then
    if !isDirect N s then
      -- `memcpy` of the heap cells into the array, `free`, and `_size -= N + 1`
      { s with direct := Cells.copy s.direct s.indirect 0 0 (size N s).toNat, _size := s._size - (N + 1) }
    else s
  else if !isDirect N s then
    -- `realloc`: the first `min(old, new)` cells are kept
    { s with
      indirect := Cells.copy (fun _ => none) s.indirect 0 0 (min s.indirectCapacity.toNat new_capacity.toNat)
      indirectCapacity := new_capacity }
  else
    -- `malloc` and `memcpy` of the array
    { s with
      indirect := Cells.copy (fun _ => none) s.direct 0 0 (size N s).toNat
      indirectCapacity := new_capacity
      _size := s._size + (N + 1) }

/-- `erase(first, last)` for a trivially destructible `T` (the destructor
    loop of the other branch takes `_size` down one at a time, to the same
    value). -/
def erase (s : Prevector T) (first last : UInt32) : Prevector T :=
  let endp := (size N s).toNat
  -- the pointers `first`, `last` and `endp` were taken in the form before
  -- `_size` changed
  let direct := isDirect N s
  let s := { s with _size := s._size - (last - first) }
  setCells direct s (Cells.copy (cells direct s) (cells direct s) first.toNat last.toNat (endp - last.toNat))

/-- `resize(new_size)`; the new elements are `T{}`. -/
def resize [Inhabited T] (s : Prevector T) (new_size : UInt32) : Prevector T :=
  let cur_size := size N s
  if cur_size = new_size then s
  else if cur_size > new_size then erase N s new_size (size N s)
  else
    let s := if new_size.toNat > capacity N s then changeCapacity N s new_size else s
    let increase := new_size - cur_size
    let s := setItems N s (Cells.fill (items N s) cur_size.toNat increase.toNat default)
    { s with _size := s._size + increase }

def reserve (s : Prevector T) (new_capacity : UInt32) : Prevector T :=
  if new_capacity.toNat > capacity N s then changeCapacity N s new_capacity else s

def shrinkToFit (s : Prevector T) : Prevector T := changeCapacity N s (size N s)

def clear [Inhabited T] (s : Prevector T) : Prevector T := resize N s 0

/-- The capacity check of `insert` and `emplace_back`: grow by half again
    when `new_size` does not fit. -/
def grow (s : Prevector T) (new_size : UInt32) : Prevector T :=
  if capacity N s < new_size.toNat then changeCapacity N s (new_size + (new_size >>> 1)) else s

/-- `insert(pos, value)`, with `p = pos - begin()`. -/
def insert (s : Prevector T) (p : UInt32) (value : T) : Prevector T :=
  let s := grow N s (size N s + 1)
  let direct := isDirect N s
  let s := setItems N s (Cells.copy (items N s) (items N s) (p.toNat + 1) p.toNat (size N s - p).toNat)
  let s := { s with _size := s._size + 1 }
  -- placement `new` through `ptr`, taken before `_size++`
  setCells direct s (Function.update (cells direct s) p.toNat (some value))

/-- `insert(pos, count, value)`. -/
def insertCount (s : Prevector T) (p count : UInt32) (value : T) : Prevector T :=
  let s := grow N s (size N s + count)
  let s := setItems N s (Cells.copy (items N s) (items N s) (p.toNat + count.toNat) p.toNat (size N s - p).toNat)
  let s := { s with _size := s._size + count }
  -- `fill(item_ptr(p), ..)` takes the pointer after `_size += count`
  setItems N s (Cells.fill (items N s) p.toNat count.toNat value)

/-- `insert(pos, first, last)` over the list `vals`; `count = last - first`
    is taken as a `uint32_t`, the `int32_t` of the source below `2^31`. -/
def insertRange (s : Prevector T) (p : UInt32) (vals : List T) : Prevector T :=
  let count := UInt32.ofNat vals.length
  let s := grow N s (size N s + count)
  let direct := isDirect N s
  let s := setItems N s (Cells.copy (items N s) (items N s) (p.toNat + count.toNat) p.toNat (size N s - p).toNat)
  let s := { s with _size := s._size + count }
  -- `fill(ptr, first, last)` through `ptr`, taken before `_size += count`
  setCells direct s (Cells.fillList (cells direct s) p.toNat vals)

def resizeUninitialized (s : Prevector T) (new_size : UInt32) : Prevector T :=
  if capacity N s < new_size.toNat then
    let s := changeCapacity N s new_size
    { s with _size := s._size + (new_size - size N s) }
  else if new_size < size N s then erase N s new_size (size N s)
  else { s with _size := s._size + (new_size - size N s) }

/-- The caller's writes `v[j] = f j` for `first ≤ j < last`, through
    `operator[]`, after a `resize_uninitialized`. -/
def writeRange (s : Prevector T) (first last : Nat) (f : Nat → T) : Prevector T :=
  setItems N s (Cells.fillFn (items N s) first (last - first) f)

/-- `emplace_back(value)`, and `push_back(value)`, which calls it. -/
def emplaceBack (s : Prevector T) (value : T) : Prevector T :=
  let s := grow N s (size N s + 1)
  let s := setItems N s (Function.update (items N s) (size N s).toNat (some value))
  { s with _size := s._size + 1 }

/-- `assign(n, val)`. -/
def assign [Inhabited T] (s : Prevector T) (n : UInt32) (val : T) : Prevector T :=
  let s := clear N s
  let s := if capacity N s < n.toNat then changeCapacity N s n else s
  let s := { s with _size := s._size + n }
  setItems N s (Cells.fill (items N s) 0 n.toNat val)

/-- `assign(first, last)` over the `n` cells of `src`: the copy of the
    range's elements that `fill(item_ptr(0), first, last)` makes. -/
def assignCells [Inhabited T] (s : Prevector T) (n : UInt32) (src : Nat → Option T) : Prevector T :=
  let s := clear N s
  let s := if capacity N s < n.toNat then changeCapacity N s n else s
  let s := { s with _size := s._size + n }
  setItems N s (Cells.copy (items N s) src 0 0 n.toNat)

/-- `assign(first, last)` over a list. -/
def assignRange [Inhabited T] (s : Prevector T) (vals : List T) : Prevector T :=
  assignCells N s (UInt32.ofNat vals.length) fun i => vals[i]?

/-- `operator=(const prevector&)` when `&other != this`. -/
def copyAssign [Inhabited T] (s other : Prevector T) : Prevector T :=
  assignCells N s (size N other) (items N other)

/-- `prevector(const prevector&)`. -/
def copyConstruct (other : Prevector T) : Prevector T :=
  let n := size N other
  let s := changeCapacity N empty n
  let s := { s with _size := s._size + n }
  setItems N s (Cells.copy (items N s) (items N other) 0 0 n.toNat)

end Prevector

/-- An operation on a store of prevectors, each named by a `Nat`. -/
inductive PrevectorOp (T : Type) where
  | pushBack (i : Nat) (value : T)
  | insert (i : Nat) (p : UInt32) (value : T)
  | insertCount (i : Nat) (p count : UInt32) (value : T)
  | insertRange (i : Nat) (p : UInt32) (vals : List T)
  | erase (i : Nat) (first last : UInt32)
  | resize (i : Nat) (n : UInt32)
  /-- `resize_uninitialized(n)`, then `v[j] = f j` for every new index `j`. -/
  | resizeUninitialized (i : Nat) (n : UInt32) (f : Nat → T)
  | assign (i : Nat) (n : UInt32) (value : T)
  | assignRange (i : Nat) (vals : List T)
  | reserve (i : Nat) (n : UInt32)
  | shrinkToFit (i : Nat)
  | clear (i : Nat)
  /-- `v[dst]` replaced by a new `prevector(v[src])`. -/
  | copyConstruct (dst src : Nat)
  /-- `v[dst]` replaced by a new `prevector(std::move(v[src]))`. -/
  | moveConstruct (dst src : Nat)
  | copyAssign (dst src : Nat)
  | moveAssign (dst src : Nat)
  | swap (i j : Nat)

namespace PrevectorOp

variable {T : Type} [Inhabited T] (N : UInt32)

/-- Swap the prevectors (or lists) at `i` and `j`. -/
def swapAt {β : Type} (v : Nat → β) (i j : Nat) : Nat → β :=
  Function.update (Function.update v i (v j)) j (v i)

/-- One operation on a store of prevectors. -/
def step (v : Nat → Prevector T) : PrevectorOp T → Nat → Prevector T
  | pushBack i value => Function.update v i (Prevector.emplaceBack N (v i) value)
  | insert i p value => Function.update v i (Prevector.insert N (v i) p value)
  | insertCount i p count value => Function.update v i (Prevector.insertCount N (v i) p count value)
  | insertRange i p vals => Function.update v i (Prevector.insertRange N (v i) p vals)
  | erase i first last => Function.update v i (Prevector.erase N (v i) first last)
  | resize i n => Function.update v i (Prevector.resize N (v i) n)
  | resizeUninitialized i n f =>
    let old := (Prevector.size N (v i)).toNat
    Function.update v i (Prevector.writeRange N (Prevector.resizeUninitialized N (v i) n) old n.toNat f)
  | assign i n value => Function.update v i (Prevector.assign N (v i) n value)
  | assignRange i vals => Function.update v i (Prevector.assignRange N (v i) vals)
  | reserve i n => Function.update v i (Prevector.reserve N (v i) n)
  | shrinkToFit i => Function.update v i (Prevector.shrinkToFit N (v i))
  | clear i => Function.update v i (Prevector.clear N (v i))
  | copyConstruct dst src => Function.update v dst (Prevector.copyConstruct N (v src))
  -- `prevector(prevector&&)` swaps with a new, empty prevector
  | moveConstruct dst src => Function.update (Function.update v src Prevector.empty) dst (v src)
  | copyAssign dst src => if dst = src then v else Function.update v dst (Prevector.copyAssign N (v dst) (v src))
  -- `operator=(prevector&&)` is `swap(other)`
  | moveAssign dst src => swapAt v dst src
  | swap i j => swapAt v i j

def run (v : Nat → Prevector T) (ops : List (PrevectorOp T)) : Nat → Prevector T :=
  ops.foldl (step N) v

/-- The list model: what `std::vector` does.  Move assignment leaves the
    moved-from vector unspecified there; the model takes the swap, which is
    one of the values it may have. -/
def apply (l : Nat → List T) : PrevectorOp T → Nat → List T
  | pushBack i value => Function.update l i (l i ++ [value])
  | insert i p value => Function.update l i ((l i).take p.toNat ++ [value] ++ (l i).drop p.toNat)
  | insertCount i p count value =>
    Function.update l i ((l i).take p.toNat ++ List.replicate count.toNat value ++ (l i).drop p.toNat)
  | insertRange i p vals => Function.update l i ((l i).take p.toNat ++ vals ++ (l i).drop p.toNat)
  | erase i first last => Function.update l i ((l i).take first.toNat ++ (l i).drop last.toNat)
  | resize i n => Function.update l i ((l i).take n.toNat ++ List.replicate (n.toNat - (l i).length) default)
  | resizeUninitialized i n f =>
    Function.update l i ((l i).take n.toNat ++ (List.range' (l i).length (n.toNat - (l i).length)).map f)
  | assign i n value => Function.update l i (List.replicate n.toNat value)
  | assignRange i vals => Function.update l i vals
  | reserve _ _ => l
  | shrinkToFit _ => l
  | clear i => Function.update l i []
  | copyConstruct dst src => Function.update l dst (l src)
  | moveConstruct dst src => Function.update (Function.update l src []) dst (l src)
  | copyAssign dst src => Function.update l dst (l src)
  | moveAssign dst src => swapAt l dst src
  | swap i j => swapAt l i j

def applyAll (l : Nat → List T) (ops : List (PrevectorOp T)) : Nat → List T :=
  ops.foldl apply l

/-- The operation is defined on the lists `l` and keeps every count below
    `2^31`: positions are within the vector, and no count reaches the range
    where `_size + N + 1`, the growth by half, or the `int32_t` difference
    would wrap. -/
def valid (l : Nat → List T) : PrevectorOp T → Bool
  | pushBack i _ => (l i).length + 1 < 2 ^ 31
  | insert i p _ => p.toNat ≤ (l i).length && (l i).length + 1 < 2 ^ 31
  | insertCount i p count _ => p.toNat ≤ (l i).length && (l i).length + count.toNat < 2 ^ 31
  | insertRange i p vals => p.toNat ≤ (l i).length && (l i).length + vals.length < 2 ^ 31
  | erase i first last => first ≤ last && last.toNat ≤ (l i).length
  | resize _ n => n.toNat < 2 ^ 31
  | resizeUninitialized _ n _ => n.toNat < 2 ^ 31
  | assign _ n _ => n.toNat < 2 ^ 31
  | assignRange _ vals => vals.length < 2 ^ 31
  | _ => true

/-- Every operation of `ops` is valid on the lists before it. -/
def validAll : (Nat → List T) → List (PrevectorOp T) → Bool
  | _, [] => true
  | l, op :: ops => valid l op && validAll (apply l op) ops

end PrevectorOp

end Revo
