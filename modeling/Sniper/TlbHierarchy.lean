import Sniper.SetAssociativeStores
import Sniper.SharedAllocators

/-!
# The TLBs of a core

The way that a replacement policy chooses is an input of the call. The TLBs that serve as prefetch
queues stay empty: `PTWTransparent` returns page number 0 for every prefetcher. The application for
which an entry was made is read by no function.
-/

namespace Sniper.PageFaults
open FallibleRuns PhysicalMemory RadixPageTable SetAssociativeStores

variable {σ ι : Type}

structure TlbEntry (ι : Type) where
  tag : ℕ
  pageSize : ℕ
  ppn : ℕ
  /-- the application whose page table the entry comes from -/
  owner : ι

/-- The arguments of `TLB::allocate`, and what it returns for a dropped entry. -/
structure EvictedTranslation (ι : Type) where
  address : ℕ
  pageSize : ℕ
  ppn : ℕ
  owner : ι

def EvictedTranslation.entry (tr : EvictedTranslation ι) : TlbEntry ι :=
  ⟨tr.address / 2^tr.pageSize,tr.pageSize,tr.ppn,tr.owner⟩

/-- The dropped entry with the address of `tagToAddressTLB`. -/
def TlbEntry.translation (e : TlbEntry ι) : EvictedTranslation ι :=
  ⟨e.tag*2^e.pageSize,e.pageSize,e.ppn,e.owner⟩

theorem TlbEntry.translation_entry (e : TlbEntry ι) : e.translation.entry=e := by
  rw [TlbEntry.translation,EvictedTranslation.entry,Nat.mul_div_cancel _ (Nat.two_pow_pos _)]

inductive TlbType where
  | data
  | instruction
  | unified
  deriving DecidableEq

/-- The TLB is on the path of instruction fetches, or on that of data accesses. -/
def TlbType.serves (instruction : Bool) : TlbType → Bool
  | .data => !instruction
  | .instruction => instruction
  | .unified => true

structure Tlb (ι : Type) where
  type : TlbType
  associativity : ℕ
  pageSizeList : List ℕ
  allocateOnMiss : Bool
  prefetch : Bool
  /-- the index hash of `splitAddressTLB`, applied to the tag -/
  setIndex : ℕ → ℕ
  sets : ℕ → ℕ → Option (TlbEntry ι)

namespace Tlb

/-- `accessSingleLineTLB`: one probe for each page size, in the order of the list. -/
def lookup (t : Tlb ι) (address : ℕ) : Option (TlbEntry ι) :=
  t.pageSizeList.findSome? fun size =>
    (find (fun e => e.tag == address / 2^size && e.pageSize == size)
      (t.sets (t.setIndex (address / 2^size))) t.associativity).map Prod.snd

def supportsPageSize (t : Tlb ι) (pageSize : ℕ) : Bool := t.pageSizeList.contains pageSize

/-- `way` is the answer of the replacement policy. -/
def allocate (t : Tlb ι) (tr : EvictedTranslation ι) (way : ℕ) :
    Except Abort (Option (EvictedTranslation ι) × Tlb ι) :=
  if t.prefetch then .ok (none,t)
  else if way<t.associativity then
    let set := t.setIndex (tr.address / 2^tr.pageSize)
    .ok ((t.sets set way).map TlbEntry.translation,{t with sets:=place t.sets set way tr.entry})
  else .error .assertion

/-- Allocations one after another, with the entries they drop. `choose` lists the answers of
the replacement policies in the order in which they are asked for. -/
def allocateAll (choose : ℕ → ℕ) : List (EvictedTranslation ι) → ℕ → Tlb ι →
      Except Abort (List (EvictedTranslation ι) × ℕ × Tlb ι)
  | [],k,t => .ok ([],k,t)
  | tr::trs,k,t => do
    let (dropped,t) ← t.allocate tr (choose k)
    let (more,k,t) ← allocateAll choose trs (k+1) t
    .ok (dropped.toList++more,k,t)

end Tlb

def lookupLevel (instruction : Bool) (address : ℕ) (tlbs : List (Tlb ι)) : Option (TlbEntry ι) :=
  tlbs.foldl (fun hit t => if t.type.serves instruction then (t.lookup address).or hit else hit) none

/-- The first level with a hit, counted from 0, and its entry. -/
def lookupLevels (instruction : Bool) (address : ℕ) : List (List (Tlb ι)) → Option (ℕ × TlbEntry ι)
  | [] => none
  | tlbs::rest =>
    match lookupLevel instruction address tlbs with
    | some e => some (0,e)
    | none => (lookupLevels instruction address rest).map fun hit => (hit.1+1,hit.2)

/-- What a TLB of level `i` is to allocate: the entries dropped by the level before, and the
translation of the call unless it was found at this level or before. -/
def wanted (instruction : Bool) (current : EvictedTranslation ι) (hitLevel : Option ℕ) (i : ℕ)
    (carried : List (EvictedTranslation ι)) (t : Tlb ι) : List (EvictedTranslation ι) :=
  if t.type.serves instruction && !t.prefetch then
    carried.filter (fun tr => t.supportsPageSize tr.pageSize) ++
      if t.supportsPageSize current.pageSize && t.allocateOnMiss && hitLevel.all (fun l => i<l)
      then [current] else []
  else []

def allocateLevel (choose : ℕ → ℕ) (wants : Tlb ι → List (EvictedTranslation ι)) :
    List (Tlb ι) → ℕ → Except Abort (List (EvictedTranslation ι) × ℕ × List (Tlb ι))
  | [],k => .ok ([],k,[])
  | t::tlbs,k => do
    let (dropped,k,t) ← t.allocateAll choose (wants t) k
    let (more,k,tlbs) ← allocateLevel choose wants tlbs k
    .ok (dropped++more,k,t::tlbs)

/-- The levels from `i` on, with the entries that level `i - 1` dropped. -/
def allocateLevels (choose : ℕ → ℕ) (instruction : Bool) (current : EvictedTranslation ι)
    (hitLevel : Option ℕ) :
    List (List (Tlb ι)) → ℕ → List (EvictedTranslation ι) → ℕ → Except Abort (List (List (Tlb ι)))
  | [],_,_,_ => .ok []
  | tlbs::rest,i,carried,k => do
    let (dropped,k,tlbs) ← allocateLevel choose (wanted instruction current hitLevel i carried) tlbs k
    let rest ← allocateLevels choose instruction current hitLevel rest (i+1) dropped k
    .ok (tlbs::rest)

/-- A call of `performAddressTranslation` while a thread of `app` runs on the core. -/
structure TranslationCall (ι : Type) where
  app : ι
  address : ℕ
  instruction : Bool
  choose : ℕ → ℕ
  /-- the application of the thread on each core, if there is one -/
  threads : List (Option ι)

/-- The page tables of the applications and the TLBs of the core, level by level. -/
structure Mmu (σ ι : Type) where
  apps : Applications σ ι
  tlbs : List (List (Tlb ι))

namespace Mmu

def lookup (m : Mmu σ ι) (call : TranslationCall ι) : Option (ℕ × TlbEntry ι) :=
  lookupLevels call.instruction call.address m.tlbs

def performPtw [DecidableEq ι] (A : AllocatorInterface σ) (rounds : ℕ) (apps : Applications σ ι)
    (call : TranslationCall ι) : Except Abort (PTWResult × Applications σ ι) :=
  apps.walkUntilMapped (fun r apps => apps.handle A call.app
    (initFaultCtx call.address r.requestedFrames call.instruction)) call.app call.address rounds

/-- The translation that a hit finds, or else the one that the walk ends with. -/
def translation [DecidableEq ι] (A : AllocatorInterface σ) (rounds : ℕ) (m : Mmu σ ι)
    (call : TranslationCall ι) : Except Abort (EvictedTranslation ι × Applications σ ι) :=
  match m.lookup call with
  | some (_,e) => .ok (⟨call.address,e.pageSize,e.ppn,e.owner⟩,m.apps)
  | none => do
    let (r,apps) ← performPtw A rounds m.apps call
    .ok (⟨call.address,r.pageSize,r.ppn,call.app⟩,apps)

/-- `performAddressTranslation` without perfect translation. -/
def performAddressTranslation [DecidableEq ι] (A : AllocatorInterface σ) (rounds : ℕ) (m : Mmu σ ι)
    (call : TranslationCall ι) : Except Abort (ℕ × Mmu σ ι) := do
  let (current,apps) ← m.translation A rounds call
  let tlbs ← allocateLevels call.choose call.instruction current ((m.lookup call).map Prod.fst)
    m.tlbs 0 [] 0
  .ok (current.ppn*2^12+call.address % 2^current.pageSize,⟨apps,tlbs⟩)

end Mmu

end Sniper.PageFaults
