import Sniper.FallibleRuns
import Sniper.MachineValues
import Sniper.SetAssociativeStores

/-!
# The NUCA cache behind the directory

The way that the replacement policy chooses is an input of each write, and so are the first values
of three variables that `sendDataToNUCA` passes by reference without initialising them.
-/

namespace Sniper.Coherence
open FallibleRuns SetAssociativeStores

/-- `CacheState::cstate_t`. -/
inductive CacheState where
  | invalid
  | shared
  | sharedUpgrading
  | exclusive
  | owned
  | modified
  deriving DecidableEq,Repr

/-- A line in use: `PrL1CacheBlockInfo` and the data of its way. An unused line has the tag
`~0`, which no address has, and is modelled by an empty way. -/
structure CacheBlock (δ : Type) where
  tag : ℕ
  cstate : CacheState
  data : δ

/-- The variables `eviction`, `evict_address` and `evict_buf` of `sendDataToNUCA`. -/
structure Evicted (δ : Type) where
  eviction : Bool
  evictAddress : ℕ
  evictBuf : δ

/-- A `DRAM_WRITE_REQ`. -/
structure DramWriteReq (δ : Type) where
  address : ℕ
  data : δ
  deriving DecidableEq

structure NucaCache (δ : Type) where
  associativity : ℕ
  blockSize : ℕ
  /-- the index hash of `splitAddress`, applied to the block number -/
  setIndex : ℕ → ℕ
  sets : ℕ → ℕ → Option (CacheBlock δ)

namespace NucaCache

variable {δ : Type}

def new (associativity blockSize : ℕ) (setIndex : ℕ → ℕ) : NucaCache δ :=
  ⟨associativity,blockSize,setIndex,fun _ _ => none⟩

section

variable (c : NucaCache δ)

def tagOf (address : ℕ) : ℕ := address / c.blockSize

def tagToAddress (tag : ℕ) : ℕ := tag*c.blockSize

def setOf (address : ℕ) : ℕ := c.setIndex (c.tagOf address)

def peekSingleLine (address : ℕ) : Option (ℕ × CacheBlock δ) :=
  find (fun b => b.tag == c.tagOf address) (c.sets (c.setOf address)) c.associativity

/-- The data of a hit. A read changes only the replacement order. -/
def read (address : ℕ) : Option δ := (c.peekSingleLine address).map fun line => line.2.data

def putBlock (address way : ℕ) (b : CacheBlock δ) : NucaCache δ :=
  {c with sets:=place c.sets (c.setOf address) way b}

/-- `way` is the answer of `getReplacementIndex`; the block that was there is returned. -/
def insertSingleLine (address : ℕ) (data : δ) (way : ℕ) : Except Abort (NucaCache δ × Option (CacheBlock δ)) :=
  if way<c.associativity then
    .ok (c.putBlock address way ⟨c.tagOf address,.invalid,data⟩,c.sets (c.setOf address) way)
  else .error .assertion

def write (address : ℕ) (data : δ) (way : ℕ) (out : Evicted δ) : Except Abort (NucaCache δ × Evicted δ) :=
  match c.peekSingleLine address with
  | some (w,b) => .ok (c.putBlock address w {b with cstate:=.modified,data:=data},out)
  | none => do
    let (c',victim) ← c.insertSingleLine address data way
    match victim with
    | some b => .ok (c',⟨b.cstate = .modified,c.tagToAddress b.tag,b.data⟩)
    | none => .ok (c',{out with eviction:=false,evictAddress:=c.tagToAddress invalidWord})

def sendDataToNuca (address : ℕ) (data : δ) (way : ℕ) (stack : Evicted δ) :
    Except Abort (NucaCache δ × List (DramWriteReq δ)) := do
  let (c',out) ← c.write address data way stack
  .ok (c',if out.eviction then [⟨out.evictAddress,out.evictBuf⟩] else [])

/-- With a NUCA cache the block goes there and not to DRAM. -/
def sendDataToDram (address : ℕ) (data : δ) (way : ℕ) (stack : Evicted δ) :
    Except Abort (NucaCache δ × List (DramWriteReq δ)) :=
  c.sendDataToNuca address data way stack

def displaced (address way : ℕ) : Option (CacheBlock δ) :=
  match c.peekSingleLine address with
  | some _ => none
  | none => c.sets (c.setOf address) way

end

theorem sendDataToNuca_hit {c : NucaCache δ} {address way w : ℕ} {data : δ} {stack : Evicted δ}
    {b : CacheBlock δ} (h : c.peekSingleLine address=some (w,b)) :
    c.sendDataToNuca address data way stack =
      .ok (c.putBlock address w {b with cstate:=.modified,data:=data},
        if stack.eviction then [⟨stack.evictAddress,stack.evictBuf⟩] else []) := by
  simp only [sendDataToNuca,write,h,ok_bind]

/-- What a write of an absent block does: it needs a way of the set, the new block starts
in state `INVALID`, and a dropped block is written to DRAM when its state is `MODIFIED`. -/
theorem sendDataToNuca_miss {c c' : NucaCache δ} {address way : ℕ} {data : δ} {stack : Evicted δ}
    {sent : List (DramWriteReq δ)} (h : c.peekSingleLine address=none)
    (hs : c.sendDataToNuca address data way stack = .ok (c',sent)) :
    way<c.associativity ∧ c'=c.putBlock address way ⟨c.tagOf address,.invalid,data⟩ ∧
      sent=match c.sets (c.setOf address) way with
        | some b => if b.cstate = .modified then [⟨c.tagToAddress b.tag,b.data⟩] else []
        | none => [] := by
  by_cases hway : way<c.associativity
  · simp only [sendDataToNuca,write,h,insertSingleLine,if_pos hway,ok_bind] at hs
    cases hv : c.sets (c.setOf address) way with
    | none =>
      simp only [hv,ok_bind] at hs
      cases hs
      exact ⟨hway,rfl,rfl⟩
    | some b =>
      simp only [hv,ok_bind,decide_eq_true_eq] at hs
      cases hs
      exact ⟨hway,rfl,rfl⟩
  · simp only [sendDataToNuca,write,h,insertSingleLine,if_neg hway,error_bind] at hs
    cases hs

end NucaCache

/-- What happened to a block since it entered the cache: the data of the last write-back,
and whether it was written again after the write that brought it in. -/
structure Residence (δ : Type) where
  writtenBack : Option δ
  rewritten : Bool

/-- A call that stores a block: a write-back, or the fill that follows a DRAM read. -/
structure NucaStore (δ : Type) where
  writeBack : Bool
  address : ℕ
  data : δ
  way : ℕ
  stack : Evicted δ

inductive NucaAccess (δ : Type) where
  | read (address : ℕ)
  | store (call : NucaStore δ)

variable {δ : Type}

namespace NucaStore

variable (call : NucaStore δ)

def send (c : NucaCache δ) : Except Abort (NucaCache δ × List (DramWriteReq δ)) :=
  if call.writeBack then c.sendDataToDram call.address call.data call.way call.stack
  else c.sendDataToNuca call.address call.data call.way call.stack

theorem send_eq (c : NucaCache δ) :
    call.send c=c.sendDataToNuca call.address call.data call.way call.stack := by
  rw [send,NucaCache.sendDataToDram,ite_self]

/-- A fill brings in no data of its own. -/
def dirtied (old : Option δ) : Option δ := if call.writeBack then some call.data else old

end NucaStore

structure NucaTraced (δ : Type) where
  cache : NucaCache δ
  residence : ℕ → Residence δ

namespace NucaTraced

def new (associativity blockSize : ℕ) (setIndex : ℕ → ℕ) : NucaTraced δ :=
  ⟨.new associativity blockSize setIndex,fun _ => ⟨none,false⟩⟩

section

variable (t : NucaTraced δ)

/-- The record of the block after the call: a block that was absent starts a new one. -/
def recorded (call : NucaStore δ) : Residence δ :=
  match t.cache.peekSingleLine call.address with
  | some _ => ⟨call.dirtied (t.residence (t.cache.tagOf call.address)).writtenBack,true⟩
  | none => ⟨call.dirtied none,false⟩

def step : NucaAccess δ → Except Abort (NucaTraced δ)
  | .read _ => .ok t
  | .store call => do
    let (c',_) ← call.send t.cache
    .ok ⟨c',Function.update t.residence (t.cache.tagOf call.address) (t.recorded call)⟩

/-- A dropped block that was written back goes to DRAM once, with the data of its last
write-back, and a write that drops nothing sends nothing to DRAM. -/
def WritesBackDropped : NucaAccess δ → Prop
  | .read _ => True
  | .store call => ∀c' sent,call.send t.cache = .ok (c',sent) →
      (t.cache.displaced call.address call.way=none → sent=[]) ∧
      ∀b∈t.cache.displaced call.address call.way,∀d∈(t.residence b.tag).writtenBack,
        sent=[⟨t.cache.tagToAddress b.tag,d⟩]

/-- On a hit the uninitialised `eviction` reads as false, and a fill brings the data that
is there; a block that was written back and is dropped was written again after it entered. -/
def Rewritten : NucaAccess δ → Prop
  | .read _ => True
  | .store call =>
      (∀line∈t.cache.peekSingleLine call.address,
        call.stack.eviction=false ∧ (call.writeBack=false → call.data=line.2.data)) ∧
      ∀b∈t.cache.displaced call.address call.way,
        (t.residence b.tag).writtenBack.isSome → (t.residence b.tag).rewritten

end

instance [DecidableEq δ] (t : NucaTraced δ) : ∀a,Decidable (t.Rewritten a)
  | .read _ => .isTrue trivial
  | .store _ => inferInstanceAs (Decidable (_ ∧ _))

/-- The block is as its record says. -/
def Shows (r : Residence δ) (b : CacheBlock δ) : Prop :=
  (r.rewritten → b.cstate = .modified) ∧ ∀d∈r.writtenBack,b.data=d

structure Tracked (t : NucaTraced δ) : Prop where
  keyed : Keyed t.cache.setIndex CacheBlock.tag t.cache.associativity t.cache.sets
  shows : ∀i w b,w<t.cache.associativity → t.cache.sets i w=some b →
    Shows (t.residence b.tag) b

theorem Tracked.put {t : NucaTraced δ} (h : t.Tracked) {address way : ℕ} {b : CacheBlock δ} {r : Residence δ}
    (htag : b.tag=t.cache.tagOf address) (hshows : Shows r b)
    (hother : ∀v b',v<t.cache.associativity → v≠way →
      t.cache.sets (t.cache.setOf address) v=some b' → b'.tag≠t.cache.tagOf address) :
    Tracked ⟨t.cache.putBlock address way b,Function.update t.residence (t.cache.tagOf address) r⟩ := by
  have hset : t.cache.setOf address=t.cache.setIndex b.tag := by rw [htag,NucaCache.setOf]
  refine ⟨?_,fun i w b' hw hb' => ?_⟩
  · simp only [NucaCache.putBlock,hset]
    refine h.keyed.place fun v b' hv hne hb' => ?_
    rw [htag]
    exact hother v b' hv hne (hset ▸ hb')
  · rcases place_cases hb' with ⟨-,-,rfl⟩ | ⟨hne,hold⟩
    · simpa only [htag,Function.update_self] using hshows
    · have htag' : b'.tag≠t.cache.tagOf address := by
        intro heq
        have hi : i=t.cache.setOf address := by
          rw [NucaCache.setOf,← heq]
          exact (h.keyed.inSet i w b' hw hold).symm
        subst hi
        exact hother w b' hw (fun hw => hne ⟨rfl,hw⟩) hold heq
      simpa only [Function.update_of_ne htag'] using h.shows i w b' hw hold

theorem Tracked.step {t t' : NucaTraced δ} {a : NucaAccess δ} (h : t.Tracked) (hG : t.Rewritten a)
    (hs : t.step a = .ok t') : t'.Tracked := by
  cases a with
  | read address =>
    cases hs
    exact h
  | store call =>
    obtain ⟨⟨c',sent⟩,hsend,hs⟩:=bind_ok hs
    cases hs
    rw [NucaStore.send_eq] at hsend
    cases hp : t.cache.peekSingleLine call.address with
    | none =>
      obtain ⟨-,rfl,-⟩:=NucaCache.sendDataToNuca_miss hp hsend
      refine h.put rfl ?_ fun v b' hv _ hb' => ?_
      · rw [recorded,hp]
        refine ⟨fun hfalse => absurd hfalse Bool.false_ne_true,fun d hd => ?_⟩
        simp only [NucaStore.dirtied] at hd
        split_ifs at hd
        · exact Option.mem_some.mp hd
        · cases hd
      · simpa using find_none hp hv hb'
    | some line =>
      obtain ⟨w,b⟩:=line
      obtain ⟨hw,hb,htag⟩:=find_some hp
      rw [NucaCache.sendDataToNuca_hit hp] at hsend
      cases hsend
      have htag : b.tag=t.cache.tagOf call.address := by simpa using htag
      refine h.put htag ?_ fun v b' hv hne hb' heq => ?_
      · rw [recorded,hp]
        refine ⟨fun _ => rfl,fun d hd => ?_⟩
        simp only [NucaStore.dirtied] at hd
        split_ifs at hd with hwb
        · exact Option.mem_some.mp hd
        · rw [(hG.1 _ hp).2 (Bool.eq_false_iff.mpr hwb)]
          exact (h.shows _ w b hw hb).2 d (htag ▸ hd)
      · exact hne (h.keyed.same_place hv hw hb' hb (heq.trans htag.symm)).2

theorem Tracked.writesBackDropped {t : NucaTraced δ} {a : NucaAccess δ} (h : t.Tracked) (hG : t.Rewritten a) :
    t.WritesBackDropped a := by
  cases a with
  | read address => trivial
  | store call =>
    intro c' sent hsend
    rw [NucaStore.send_eq] at hsend
    cases hp : t.cache.peekSingleLine call.address with
    | some line =>
      have hnone : t.cache.displaced call.address call.way=none := by
        simp only [NucaCache.displaced,hp]
      rw [NucaCache.sendDataToNuca_hit hp,(hG.1 line hp).1] at hsend
      cases hsend
      exact ⟨fun _ => rfl,fun b hb => by rw [hnone] at hb; cases hb⟩
    | none =>
      have hdrop : t.cache.displaced call.address call.way =
          t.cache.sets (t.cache.setOf call.address) call.way := by
        simp only [NucaCache.displaced,hp]
      obtain ⟨hway,-,hsent⟩:=NucaCache.sendDataToNuca_miss hp hsend
      refine ⟨fun hnone => ?_,fun b hb d hd => ?_⟩
      · rw [← hdrop,hnone] at hsent
        exact hsent
      · have hshows := h.shows _ call.way b hway (hdrop ▸ hb)
        have hdirty := hshows.1 (hG.2 b hb (Option.isSome_iff_exists.mpr ⟨d,hd⟩))
        rw [hdrop] at hb
        rw [hsent,hb]
        simp only [if_pos hdirty,hshows.2 d hd]

/-- From an empty cache of any geometry. -/
theorem nuca_writes_back_dropped (associativity blockSize : ℕ) (setIndex : ℕ → ℕ)
    {accesses : List (NucaAccess δ)}
    (h : Along step Rewritten (new associativity blockSize setIndex) accesses) :
    Along step WritesBackDropped (new associativity blockSize setIndex) accesses :=
  Along.of_invariant (I:=Tracked) (fun _ _ ht hG => ht.writesBackDropped hG)
    (fun _ _ _ ht hG hs => ht.step hG hs) ⟨keyed_empty setIndex _ associativity,
      fun _ _ _ _ h => (Option.some_ne_none _ h.symm).elim⟩ h

/-- One way: block 0 is filled with 5, written back with 7 and read, then block 1 takes its
place and the 7 goes to DRAM. -/
theorem nuca_writes_back_dropped_hit :
    (∃t t',run step (new 1 64 fun _ => 0 : NucaTraced ℕ) [.store ⟨false,0,5,0,⟨true,9,9⟩⟩,
        .store ⟨true,0,7,0,⟨false,9,9⟩⟩,.read 0] = .ok t ∧
      (NucaStore.send ⟨false,64,3,0,⟨true,9,9⟩⟩ t.cache) = .ok (t',[⟨0,7⟩])) ∧
    Along step WritesBackDropped (new 1 64 fun _ => 0 : NucaTraced ℕ)
      [.store ⟨false,0,5,0,⟨true,9,9⟩⟩,.store ⟨true,0,7,0,⟨false,9,9⟩⟩,.read 0,
        .store ⟨false,64,3,0,⟨true,9,9⟩⟩] :=
  ⟨⟨_,_,rfl,rfl⟩,nuca_writes_back_dropped 1 64 (fun _ => 0) (by decide)⟩

/-- One way: block 0 is written back with 7 and was absent, then block 1 takes its place and
nothing goes to DRAM. In the second run block 0 is written back twice and the variable
`eviction` reads as true, so 9 is written to address 9. -/
theorem nuca_drops_written_back : ¬ Along step WritesBackDropped (new 1 64 fun _ => 0 : NucaTraced ℕ)
      [.store ⟨true,0,7,0,⟨false,9,9⟩⟩,.store ⟨false,64,3,0,⟨false,9,9⟩⟩] ∧
    ¬ Along step WritesBackDropped (new 1 64 fun _ => 0 : NucaTraced ℕ)
      [.store ⟨true,0,7,0,⟨false,9,9⟩⟩,.store ⟨true,0,8,0,⟨true,9,9⟩⟩] := by
  constructor
  · intro h
    have hsent := ((h.2 _ rfl).1 _ _ rfl).2 _ rfl 7 rfl
    cases hsent
  · intro h
    have hsent := ((h.2 _ rfl).1 _ _ rfl).1 rfl
    cases hsent

end NucaTraced

end Sniper.Coherence
