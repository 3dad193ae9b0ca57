import Sniper.FallibleRuns
import Sniper.PhysicalMemoryAllocator

/-!
# The range table of `rangetable_btree.cc`

The slots past `n` are kept: `splitChild` leaves old entries in them and `search` reads one of
them. A slot that was never written has the key `(0, 0)`. Reading or writing past the arrays and
following a pointer that was never set stop the run.
-/

namespace Sniper.RangeTable
open FallibleRuns PhysicalMemory

structure RangeEntry where
  offset : UInt64
  deriving DecidableEq

/-- One position of `keys` together with the same position of `values`. -/
structure Slot where
  first : ℕ
  second : ℕ
  value : RangeEntry
  deriving DecidableEq

namespace Slot

def blank : Slot := ⟨0,0,⟨0⟩⟩

/-- The comparison of `std::pair`. -/
def KeyLt (a b : Slot) : Prop := a.first<b.first ∨ a.first=b.first ∧ a.second<b.second

instance (a b : Slot) : Decidable (KeyLt a b) := inferInstanceAs (Decidable (_ ∨ _))

theorem KeyLt.asymm {a b : Slot} (h : a.KeyLt b) : ¬ b.KeyLt a := by
  intro h'
  simp only [KeyLt] at h h'
  omega

/-- The half-open range of the key contains the address. -/
def Contains (e : Slot) (a : ℕ) : Prop := e.first≤a ∧ a<e.second

instance (e : Slot) (a : ℕ) : Decidable (e.Contains a) := inferInstanceAs (Decidable (_ ∧ _))

/-- One range ends before the other begins. -/
def Apart (a b : Slot) : Prop := a.second≤b.first ∨ b.second≤a.first

instance (a b : Slot) : Decidable (Apart a b) := inferInstanceAs (Decidable (_ ∨ _))

theorem Apart.symm {a b : Slot} (h : Apart a b) : Apart b a := Or.symm h

theorem not_contains_blank (a : ℕ) : ¬ blank.Contains a := fun h => Nat.not_lt_zero a h.2

theorem Apart.not_contains {a b : Slot} {k : ℕ} (h : Apart a b) (ha : a.Contains k) : ¬ b.Contains k := by
  intro hb
  have := ha.1
  have := ha.2
  have := hb.1
  have := hb.2
  rcases h with h | h <;> omega

theorem Apart.second_le {a b : Slot} (h : Apart a b) (ha : a.first≤a.second) (hb : b.first≤b.second)
    (hlt : ¬ b.KeyLt a) : a.second≤b.first := by
  rcases h with h | h
  · exact h
  · simp only [KeyLt,not_or,not_and,not_lt] at hlt
    by_cases heq : b.first=a.first
    · have := hlt.2 heq
      omega
    · omega

end Slot

inductive TreeNode where
  | mk (leaf : Bool) (n : ℕ) (emulatedPpn : UInt64) (slots : ℕ → Slot) (C : ℕ → Option TreeNode)

namespace TreeNode

def leaf : TreeNode → Bool
  | mk l _ _ _ _ => l

def n : TreeNode → ℕ
  | mk _ n _ _ _ => n

def emulatedPpn : TreeNode → UInt64
  | mk _ _ p _ _ => p

def slots : TreeNode → ℕ → Slot
  | mk _ _ _ s _ => s

def C : TreeNode → ℕ → Option TreeNode
  | mk _ _ _ _ c => c

/-- The constructor, with the page number that `handle_page_table_allocations` returned. -/
def new (leaf : Bool) (emulatedPpn : UInt64) : TreeNode := mk leaf 0 emulatedPpn (fun _ => .blank) fun _ => none

def setChild (x : TreeNode) (i : ℕ) (c : TreeNode) : TreeNode :=
  mk x.leaf x.n x.emulatedPpn x.slots (Function.update x.C i (some c))

/-- The slots after those from `i` to `n - 1` have moved up by one and `e` is stored at `i`. -/
def shiftIn (slots : ℕ → Slot) (n i : ℕ) (e : Slot) (j : ℕ) : Slot :=
  if j < i then slots j else if j=i then e else if j≤n then slots (j - 1) else slots j

/-- The loop of `search`, with `r` keys left to compare. -/
def scan (slots : ℕ → Slot) (k : ℕ) : (r i : ℕ) → ℕ
  | 0,i => i
  | r+1,i => if (slots i).second<k then scan slots k r (i+1) else i

def stop (x : TreeNode) (k : ℕ) : ℕ := scan x.slots k x.n 0

/-- The loops of `insertNonFull`: one past the last of `n` keys that is not above `e`. -/
def insertionIndex (slots : ℕ → Slot) (e : Slot) : ℕ → ℕ
  | 0 => 0
  | n+1 => if e.KeyLt (slots n) then insertionIndex slots e n else n+1

mutual

/-- The number of pointers followed to reach the leftmost leaf. -/
def height : TreeNode → ℕ
  | mk leaf _ _ _ c => if leaf then 0 else heightBelow (c 0)+1

def heightBelow : Option TreeNode → ℕ
  | none => 0
  | some x => height x

end

mutual

/-- `search`: the node and index found, if any, with the addresses accessed. -/
def search (t k : ℕ) : TreeNode → Except Abort (Option (TreeNode × ℕ) × List UInt64)
  | mk leaf n ppn slots c =>
    let i := scan slots k n 0
    let accessed := (List.range i).map fun j => ppn*4096+UInt64.ofNat (j*24)
    if 2*t - 1 ≤ i then .error .outOfBounds
    else if (slots i).Contains k then .ok (some (mk leaf n ppn slots c,i),accessed)
    else if leaf then .ok (none,accessed)
    else do
      let (found,below) ← searchBelow t k (c i)
      pure (found,accessed++below)

def searchBelow (t k : ℕ) : Option TreeNode → Except Abort (Option (TreeNode × ℕ) × List UInt64)
  | none => .error .nullDereference
  | some x => search t k x

end

mutual

def visited (k : ℕ) : TreeNode → List TreeNode
  | mk leaf n ppn slots c =>
    mk leaf n ppn slots c ::
      if (slots (scan slots k n 0)).Contains k ∨ leaf then []
      else visitedBelow k (c (scan slots k n 0))

def visitedBelow (k : ℕ) : Option TreeNode → List TreeNode
  | none => []
  | some x => visited k x

end

/-- What `splitChild` leaves in the full child. -/
def lowerHalf (t : ℕ) (y : TreeNode) : TreeNode := mk y.leaf (t - 1) y.emulatedPpn y.slots y.C

/-- The new node of `splitChild`. -/
def upperHalf (t : ℕ) (y : TreeNode) (emulatedPpn : UInt64) : TreeNode :=
  mk y.leaf (t - 1) emulatedPpn (fun j => if j<t - 1 then y.slots (j+t) else .blank)
    fun j => if y.leaf=false ∧ j<t then y.C (j+t) else none

/-- `splitChild`: the full child `y` at `i` is divided and its middle entry moves up. -/
def splitChild (t : ℕ) (x : TreeNode) (i : ℕ) (y : TreeNode) (emulatedPpn : UInt64) : TreeNode :=
  mk x.leaf (x.n+1) x.emulatedPpn (shiftIn x.slots x.n i (y.slots (t - 1))) fun j =>
    if j < i then x.C j
    else if j=i then some (lowerHalf t y)
    else if j=i+1 then some (upperHalf t y emulatedPpn)
    else if j≤x.n+1 then x.C (j - 1)
    else x.C j

def insertNonFull (t : ℕ) (e : Slot) (fuel : ℕ) (x : TreeNode) (a : PhysicalMemoryAllocator) :
    Except Abort (TreeNode × PhysicalMemoryAllocator) :=
  let i := insertionIndex x.slots e x.n
  if x.leaf then
    if 2*t - 1≤x.n then .error .outOfBounds
    else .ok (mk x.leaf (x.n+1) x.emulatedPpn (shiftIn x.slots x.n i e) x.C,a)
  else
    match fuel with
    | 0 => .error .unfinished
    | fuel+1 =>
      match x.C i with
      | none => .error .nullDereference
      | some y =>
        if y.n=2*t - 1 then
          if 2*t - 1≤x.n then .error .outOfBounds
          else
            let (ppn,a) := a.handlePageTableAllocations 4096
            let x := splitChild t x i y ppn
            let i := if (x.slots i).KeyLt e then i+1 else i
            match x.C i with
            | none => .error .nullDereference
            | some c => do
              let (c,a) ← insertNonFull t e fuel c a
              pure (x.setChild i c,a)
        else do
          let (y,a) ← insertNonFull t e fuel y a
          pure (x.setChild i y,a)

end TreeNode

structure RangeTableBtree where
  t : ℕ
  root : Option TreeNode

/-- A range table with the allocator that its nodes are taken from. -/
structure State where
  table : RangeTableBtree
  allocator : PhysicalMemoryAllocator

namespace RangeTableBtree
open TreeNode

def new (t : ℕ) : RangeTableBtree := ⟨t,none⟩

/-- `lookup`: an empty table answers with its null root. -/
def lookup (s : RangeTableBtree) (address : ℕ) : Except Abort (Option (TreeNode × ℕ) × List UInt64) :=
  match s.root with
  | none => .ok (none,[])
  | some root => search s.t address root

def visited (s : RangeTableBtree) (address : ℕ) : List TreeNode := visitedBelow address s.root

end RangeTableBtree

open TreeNode in
/-- `insert`: a full root is first split below a new one. -/
def State.insert (s : State) (e : Slot) : Except Abort State :=
  let t := s.table.t
  match s.table.root with
  | none =>
    let (ppn,a) := s.allocator.handlePageTableAllocations 4096
    .ok ⟨⟨t,some (.mk true 1 ppn (Function.update (fun _ => .blank) 0 e) fun _ => none)⟩,a⟩
  | some root =>
    if root.n=2*t - 1 then
      let (ppn,a) := s.allocator.handlePageTableAllocations 4096
      let (ppn',a) := a.handlePageTableAllocations 4096
      let x := splitChild t ((TreeNode.new false ppn).setChild 0 root) 0 root ppn'
      let i := if (x.slots 0).KeyLt e then 1 else 0
      match x.C i with
      | none => .error .nullDereference
      | some c => do
        let (c,a) ← insertNonFull t e c.height c a
        pure ⟨⟨t,some (x.setChild i c)⟩,a⟩
    else do
      let (root,a) ← insertNonFull t e root.height root s.allocator
      pure ⟨⟨t,some root⟩,a⟩

end Sniper.RangeTable
