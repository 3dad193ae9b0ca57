import Sniper.NucaCache

/-!
# Cache sets and their replacement policies

A way at or above `m_num_active_ways` is switched off: it keeps its block and takes part in
lookups. The arrays of a set are functions of the way. Counters for statistics are left out.
-/

namespace Sniper.WayGating
open Coherence FallibleRuns List

inductive BlockType where
  | pageTableData
  | pageTableInstruction
  | instruction
  | data
  deriving DecidableEq,Repr

def BlockType.isMetadata : BlockType → Bool
  | .pageTableData | .pageTableInstruction => true
  | .instruction | .data => false

structure CacheBlockInfo where
  tag : UInt64
  cstate : CacheState
  blockType : BlockType
  deriving DecidableEq,Repr

namespace CacheBlockInfo

/-- The tag `~0` of an unused way. -/
def noTag : UInt64 := 0xffffffffffffffff

def new : CacheBlockInfo := ⟨noTag,.invalid,.data⟩

def isValid (b : CacheBlockInfo) : Bool := b.tag != noTag

def invalidate (b : CacheBlockInfo) : CacheBlockInfo := {b with tag:=noTag,cstate:=.invalid}

end CacheBlockInfo

/-- `CacheSetInfoCHiRP`, one for all sets of a cache. -/
structure ChirpInfo where
  tableSize : ℕ
  tableSize_pos : 0<tableSize
  threshold : UInt8
  predictionTable : ℕ → UInt8
  pathHist : UInt64
  condHist : UInt64
  uncondIndHist : UInt64

namespace ChirpInfo

def new (tableSize : ℕ) (tableSize_pos : 0<tableSize) (threshold : UInt8) : ChirpInfo :=
  ⟨tableSize,tableSize_pos,threshold,fun _ => 0,0,0,0⟩

def hash16 (raw : UInt64) : UInt16 :=
  let raw := raw ^^^ (raw >>> 32)
  let raw := raw ^^^ (raw >>> 16)
  raw.toUInt16

variable (c : ChirpInfo)

def computeSignature (pc : UInt64) : UInt16 :=
  hash16 ((pc >>> 2) ^^^ c.pathHist ^^^ c.condHist ^^^ c.uncondIndHist)

def tableIndex (sig : UInt16) : ℕ := sig.toNat % c.tableSize

def predictDead (i : ℕ) : Bool := decide (c.threshold ≤ c.predictionTable i)

def incrementCounter (i : ℕ) : ChirpInfo :=
  if c.predictionTable i<3 then
    {c with predictionTable:=Function.update c.predictionTable i (c.predictionTable i+1)}
  else c

def decrementCounter (i : ℕ) : ChirpInfo :=
  if 0<c.predictionTable i then
    {c with predictionTable:=Function.update c.predictionTable i (c.predictionTable i - 1)}
  else c

end ChirpInfo

/-- What a set of each policy keeps beside its blocks. -/
inductive Replacement where
  | lru (lruBits : ℕ → UInt8)
  | mru (lruBits : ℕ → UInt8)
  | nru (lruBits : ℕ → UInt8) (numBitsSet replacementPointer : UInt8)
  | random (seed : UInt32)
  | chirp (lruBits : ℕ → UInt8) (sig : ℕ → UInt16) (predDead firstHit : ℕ → Bool)

/-- The policies of `createCacheSet`; sets of the random policy are seeded with the time of
their construction. -/
inductive Policy where
  | lru
  | mru
  | nru
  | random (seed : ℕ → UInt32)
  | chirp

def Policy.initial (set : ℕ) : Policy → Replacement
  | .lru => .lru UInt8.ofNat
  | .mru => .mru UInt8.ofNat
  | .nru => .nru (fun _ => 0) 0 0
  | .random seed => .random (seed set)
  | .chirp => .chirp UInt8.ofNat (fun _ => 0) (fun _ => false) (fun _ => true)

structure CacheSet where
  associativity : ℕ
  activeWays : ℕ
  infos : ℕ → CacheBlockInfo
  /-- `m_blocks`, cut into the lines of the ways; allocated only with fault injection -/
  blocks : Option (ℕ → List UInt8)
  replacement : Replacement

/-- `CacheSetLRU::moveToMRU`, also the body of `CacheSetMRU::updateReplacementIndex`. -/
def moveToMru (associativity : ℕ) (lruBits : ℕ → UInt8) (accessed : ℕ) : ℕ → UInt8 :=
  Function.update
    (fun i => if i<associativity ∧ lruBits i<lruBits accessed then lruBits i+1
      else lruBits i) accessed 0

/-- `CacheSetNRU::updateReplacementIndex`: the bits and the number of bits set. -/
def touchNru (associativity : ℕ) (lruBits : ℕ → UInt8) (numBitsSet : UInt8) (accessed : ℕ) :
    (ℕ → UInt8) × UInt8 :=
  let lruBits := Function.update lruBits accessed 1
  let numBitsSet := numBitsSet+1
  if numBitsSet.toNat=associativity then
    (fun i => if i<associativity then 0 else lruBits i,0)
  else (lruBits,numBitsSet)

def nextRandom (seed : UInt32) : UInt32 × ℕ :=
  let seed := seed*1103515245+12345
  (seed,(seed / 65536).toNat % 32768)

namespace CacheSet

def new (associativity : ℕ) (hasBlocks : Bool) (blocksize : ℕ) (replacement : Replacement) : CacheSet where
  associativity := associativity
  activeWays := associativity
  infos := fun _ => .new
  blocks := if hasBlocks then some fun _ => List.replicate blocksize 0 else none
  replacement := replacement

section

variable (s : CacheSet)

def isValidReplacement (i : ℕ) : Bool := decide (i<s.activeWays) && (s.infos i).cstate != .sharedUpgrading

/-- The first loop of every policy: an unused way that is switched on. -/
def firstInvalid : Option ℕ := (List.range s.activeWays).find? fun i => !(s.infos i).isValid

/-- The second loop of `CacheSetLRU::getReplacementIndex`. -/
def lruScan (lruBits : ℕ → UInt8) : ℕ :=
  ((List.range s.associativity).foldl (fun (acc : ℕ × UInt8) i =>
    if acc.2<lruBits i ∧ s.isValidReplacement i then (i,lruBits i) else acc) (0,0)).1

/-- The `while` loop of `CacheSetMRU::getReplacementIndex`. -/
def mruScan (lruBits : ℕ → UInt8) : Option ℕ :=
  (List.range s.associativity).findSome? fun target =>
    (List.range s.associativity).find? fun i =>
      (lruBits i).toNat == target && s.isValidReplacement i

def nextPointer (pointer : UInt8) : UInt8 := UInt8.ofNat ((pointer.toNat+1) % s.associativity)

end

/-- The second loop of `CacheSetNRU::getReplacementIndex`, with the passes left: the victim
and the replacement pointer after it. -/
def nruScan (s : CacheSet) (lruBits : ℕ → UInt8) (haveZeroBit : Bool) : ℕ → UInt8 → Option (ℕ × UInt8)
  | 0,_ => none
  | passes+1,pointer =>
    if (lruBits pointer.toNat=0 ∨ haveZeroBit=false) ∧
        s.isValidReplacement pointer.toNat then
      some (pointer.toNat,s.nextPointer pointer)
    else nruScan s lruBits haveZeroBit passes (s.nextPointer pointer)

/-- `CacheSetRandom::getReplacementIndex`, which calls itself until the way drawn may be
replaced, with the calls left. -/
def randomIndex (s : CacheSet) : ℕ → UInt32 → Except Abort (ℕ × UInt32)
  | 0,_ => .error .unfinished
  | calls+1,seed =>
    match s.firstInvalid with
    | some i => .ok (i,seed)
    | none =>
      let drawn := nextRandom seed
      let index := drawn.2 % s.activeWays
      if s.isValidReplacement index then .ok (index,drawn.1)
      else randomIndex s calls drawn.1

/-- The scan of `CacheSetCHiRP::getReplacementIndex`. -/
structure ChirpScan where
  deadVictim : ℕ
  deadMaxBits : UInt8
  lruVictim : ℕ
  lruMaxBits : UInt8

variable (s : CacheSet)

def chirpVisit (lruBits : ℕ → UInt8) (predDead : ℕ → Bool) (acc : ChirpScan) (i : ℕ) : ChirpScan :=
  if s.isValidReplacement i then
    let acc := if predDead i ∧ acc.deadMaxBits≤lruBits i then
      {acc with deadVictim:=i,deadMaxBits:=lruBits i} else acc
    if acc.lruMaxBits≤lruBits i then {acc with lruVictim:=i,lruMaxBits:=lruBits i} else acc
  else acc

def chirpVictim (lruBits : ℕ → UInt8) (predDead : ℕ → Bool) : ℕ :=
  let scan := (List.range s.associativity).foldl (s.chirpVisit lruBits predDead)
    ⟨s.associativity,0,0,0⟩
  if scan.deadVictim<s.associativity then scan.deadVictim else scan.lruVictim

variable (info : ChirpInfo)

def chirpFill (lruBits : ℕ → UInt8) (sig : ℕ → UInt16) (predDead firstHit : ℕ → Bool) (i : ℕ) (pc : UInt64) :
    Replacement :=
  let newSig := info.computeSignature pc
  .chirp (moveToMru s.associativity lruBits i) (Function.update sig i newSig)
    (Function.update predDead i (info.predictDead (info.tableIndex newSig)))
    (Function.update firstHit i true)

/-- The way for the next block, with the policy's state after the choice. The calls bound
the recursion of the random policy. -/
def getReplacementIndex (calls : ℕ) : Except Abort (ℕ × Replacement × ChirpInfo) :=
  match s.replacement with
  | .lru lruBits =>
    let i := s.firstInvalid.getD (s.lruScan lruBits)
    .ok (i,.lru (moveToMru s.associativity lruBits i),info)
  | .mru lruBits =>
    match s.firstInvalid.or (s.mruScan lruBits) with
    | some i => .ok (i,.mru (moveToMru s.associativity lruBits i),info)
    | none => .error .assertion
  | .nru lruBits numBitsSet pointer =>
    match (List.range s.associativity).find? fun i =>
        decide (i<s.activeWays) && !(s.infos i).isValid with
    | some i =>
      let touched := touchNru s.associativity lruBits numBitsSet i
      .ok (i,.nru touched.1 touched.2 pointer,info)
    | none =>
      let haveZeroBit := (List.range s.associativity).any fun i =>
        lruBits i == 0 && s.isValidReplacement i
      match s.nruScan lruBits haveZeroBit s.associativity pointer with
      | some (i,pointer) =>
        let touched := touchNru s.associativity lruBits numBitsSet i
        .ok (i,.nru touched.1 touched.2 pointer,info)
      | none => .error .assertion
  | .random seed => do
    let (i,seed) ← s.randomIndex calls seed
    .ok (i,.random seed,info)
  | .chirp lruBits sig predDead firstHit =>
    match s.firstInvalid with
    | some i => .ok (i,s.chirpFill info lruBits sig predDead firstHit i 0,info)
    | none =>
      let victim := s.chirpVictim lruBits predDead
      -- an entry that was never hit is evidence for its signature being dead
      let info := if firstHit victim then info.incrementCounter (info.tableIndex (sig victim))
        else info
      .ok (victim,s.chirpFill info lruBits sig predDead firstHit victim 0,info)

def updateReplacementIndex (i : ℕ) : Replacement × ChirpInfo :=
  match s.replacement with
  | .lru lruBits => (.lru (moveToMru s.associativity lruBits i),info)
  | .mru lruBits => (.mru (moveToMru s.associativity lruBits i),info)
  | .nru lruBits numBitsSet pointer =>
    let touched := touchNru s.associativity lruBits numBitsSet i
    (.nru touched.1 touched.2 pointer,info)
  | .random seed => (.random seed,info)
  | .chirp lruBits sig predDead firstHit =>
    let info := if firstHit i then info.decrementCounter (info.tableIndex (sig i)) else info
    let newSig := info.computeSignature 0
    (.chirp (moveToMru s.associativity lruBits i) (Function.update sig i newSig)
      (Function.update predDead i (info.predictDead (info.tableIndex newSig)))
      (Function.update firstHit i false),info)

end CacheSet

/-- What the policy's own state must satisfy for its search to succeed, given which ways
hold a valid block. The bits of the MRU policy stay below the associativity. The 8-bit
replacement pointer of the NRU policy does not reach past way 255; in a larger set the
8-bit count never resets the bits, so every valid block has its bit set. -/
def Replacement.Sound (associativity : ℕ) (valid : ℕ → Prop) : Replacement → Prop
  | .mru lruBits => ∀i<associativity,(lruBits i).toNat<associativity
  | .nru lruBits _ pointer => pointer.toNat<associativity ∧
    (256≤associativity → ∀i<associativity,valid i → lruBits i≠0)
  | _ => True

variable {n : ℕ}

theorem Replacement.Sound.mono {valid valid' : ℕ → Prop} {r : Replacement} (h : r.Sound n valid)
    (himp : ∀i<n,valid' i → valid i) : r.Sound n valid' := by
  cases r with
  | nru lruBits _ pointer => exact ⟨h.1,fun hn i hi hv => h.2 hn i hi (himp i hi hv)⟩
  | _ => exact h

theorem Policy.initial_sound (p : Policy) (hn : 0<n) (set : ℕ) : (p.initial set).Sound n fun _ => False := by
  cases p with
  | mru =>
    intro i hi
    rw [UInt8.toNat_ofNat']
    exact (Nat.mod_le _ _).trans_lt hi
  | nru => exact ⟨hn,fun _ _ _ => False.elim⟩
  | _ => trivial

theorem moveToMru_lt {lruBits : ℕ → UInt8} (h : ∀i<n,(lruBits i).toNat<n) (accessed : ℕ) (ha : accessed<n)
    (i : ℕ) (hi : i<n) : (moveToMru n lruBits accessed i).toNat<n := by
  unfold moveToMru
  by_cases heq : i=accessed
  · subst heq
    rw [Function.update_self]
    exact Nat.zero_lt_of_lt hi
  · rw [Function.update_of_ne heq]
    split_ifs with hlt
    · have hbits := UInt8.lt_iff_toNat_lt.mp hlt.2
      have hmax := h accessed ha
      rw [UInt8.toNat_add]
      exact (Nat.mod_le _ _).trans_lt (by rw [UInt8.toNat_one]; omega)
    · exact h i hi

theorem touchNru_ne_zero (hn : 256≤n) (lruBits : ℕ → UInt8) (numBitsSet : UInt8) (accessed : ℕ) {i : ℕ}
    (h : i≠accessed → lruBits i≠0) : (touchNru n lruBits numBitsSet accessed).1 i≠0 := by
  have hcount : (numBitsSet+1).toNat≠n := by
    have := (numBitsSet+1).toNat_lt
    omega
  simp only [touchNru,if_neg hcount]
  by_cases heq : i=accessed
  · subst heq
    simp
  · rw [Function.update_of_ne heq]
    exact h heq

namespace CacheSet

variable {s : CacheSet}

variable {i : ℕ} {lruBits : ℕ → UInt8} {pointer : UInt8} {haveZeroBit : Bool}

theorem isValidReplacement_lt (h : s.isValidReplacement i=true) : i<s.activeWays := by
  simp only [isValidReplacement,Bool.and_eq_true,decide_eq_true_eq] at h
  exact h.1

theorem firstInvalid_lt (h : s.firstInvalid=some i) : i<s.activeWays := mem_range.mp (mem_of_find?_eq_some h)

theorem lruScan_lt (lruBits : ℕ → UInt8) (hpos : 0<s.activeWays) : s.lruScan lruBits<s.activeWays := by
  unfold lruScan
  generalize List.range s.associativity=ways
  suffices ∀acc : ℕ × UInt8,acc.1<s.activeWays → (ways.foldl (fun (acc : ℕ × UInt8) i =>
      if acc.2<lruBits i ∧ s.isValidReplacement i then (i,lruBits i) else acc) acc).1 <
        s.activeWays from this (0,0) hpos
  induction ways with
  | nil => exact fun acc h => h
  | cons i ways ih =>
    intro acc hacc
    rw [foldl_cons]
    split_ifs with hi
    · exact ih _ (isValidReplacement_lt hi.2)
    · exact ih _ hacc

theorem chirpVictim_lt (lruBits : ℕ → UInt8) (predDead : ℕ → Bool) (hpos : 0<s.activeWays) :
    s.chirpVictim lruBits predDead<s.activeWays := by
  unfold chirpVictim
  generalize List.range s.associativity=ways
  suffices ∀acc : ChirpScan,(acc.deadVictim<s.associativity → acc.deadVictim<s.activeWays) →
      acc.lruVictim<s.activeWays →
      let scan := ways.foldl (s.chirpVisit lruBits predDead) acc
      (scan.deadVictim<s.associativity → scan.deadVictim<s.activeWays) ∧
        scan.lruVictim<s.activeWays by
    obtain ⟨hdead,hlru⟩:=this ⟨s.associativity,0,0,0⟩ (fun h => absurd h (lt_irrefl _)) hpos
    dsimp only
    split_ifs with h
    · exact hdead h
    · exact hlru
  induction ways with
  | nil => exact fun acc hdead hlru => ⟨hdead,hlru⟩
  | cons i ways ih =>
    intro acc hdead hlru
    rw [foldl_cons]
    unfold chirpVisit
    by_cases hi : s.isValidReplacement i=true
    · have hlt := isValidReplacement_lt hi
      simp only [hi,if_true]
      refine ih _ ?_ ?_
      · split_ifs <;> first | exact fun _ => hlt | exact hdead
      · split_ifs <;> first | exact hlt | exact hlru
    · rw [if_neg hi]
      exact ih acc hdead hlru

/-- The common part of the conditions under which a policy finds a victim: some way is
switched on, the set has it, and no block is in the middle of an upgrade. -/
structure Open (s : CacheSet) : Prop where
  pos : 0<s.activeWays
  le : s.activeWays ≤ s.associativity
  noUpgrade : ∀i,(s.infos i).cstate ≠ .sharedUpgrading

theorem Open.isValidReplacement (h : s.Open) (hi : i<s.activeWays) : s.isValidReplacement i=true := by
  simp [CacheSet.isValidReplacement,hi,h.noUpgrade i]

theorem mruScan_lt (h : s.mruScan lruBits=some i) : i<s.activeWays := by
  obtain ⟨target,-,htarget⟩:=exists_of_findSome?_eq_some h
  have hi := List.find?_some htarget
  rw [Bool.and_eq_true] at hi
  exact isValidReplacement_lt hi.2

theorem Open.mruScan_isSome (h : s.Open) (hbits : ∀i<s.associativity,(lruBits i).toNat<s.associativity) :
    (s.mruScan lruBits).isSome := by
  have hzero : 0<s.associativity := h.pos.trans_le h.le
  rw [mruScan,List.findSome?_isSome_iff]
  refine ⟨(lruBits 0).toNat,mem_range.mpr (hbits 0 hzero),?_⟩
  rw [List.find?_isSome]
  exact ⟨0,mem_range.mpr hzero,by simp [h.isValidReplacement h.pos]⟩

theorem nextPointer_toNat (h : pointer.toNat<s.associativity) :
    (s.nextPointer pointer).toNat=(pointer.toNat+1) % min s.associativity 256 := by
  have hbyte := pointer.toNat_lt
  rw [nextPointer,UInt8.toNat_ofNat']
  by_cases hn : s.associativity≤256
  · rw [Nat.min_eq_left hn]
    exact Nat.mod_eq_of_lt ((Nat.mod_lt _ (by omega)).trans_le hn)
  · rw [Nat.min_eq_right (by omega),Nat.mod_eq_of_lt (show pointer.toNat+1<_ by omega)]

theorem nextPointer_lt (h : pointer.toNat<s.associativity) : (s.nextPointer pointer).toNat<s.associativity := by
  rw [nextPointer_toNat h]
  exact (Nat.mod_lt _ (by omega)).trans_le (Nat.min_le_left _ _)

section

variable (hp : pointer.toNat<s.associativity)
include hp

theorem nruScan_lt {passes : ℕ} {pointer' : UInt8}
    (h : s.nruScan lruBits haveZeroBit passes pointer=some (i,pointer')) :
    i<s.activeWays ∧ pointer'.toNat<s.associativity := by
  induction passes generalizing pointer with
  | zero => cases h
  | succ passes ih =>
    rw [nruScan] at h
    split_ifs at h with hhit
    · cases h
      exact ⟨isValidReplacement_lt hhit.2,nextPointer_lt hp⟩
    · exact ih (nextPointer_lt hp) h

theorem nruScan_isSome {passes : ℕ} {k : ℕ} (hk : k<passes) (hhit : (lruBits ((pointer.toNat+k)
    % min s.associativity 256)=0 ∨ haveZeroBit=false) ∧ s.isValidReplacement ((pointer.toNat +
    k) % min s.associativity 256)) : (s.nruScan lruBits haveZeroBit passes pointer).isSome := by
  induction passes generalizing pointer k with
  | zero => omega
  | succ passes ih =>
    rw [nruScan]
    split_ifs with hnow
    · rfl
    · cases k with
      | zero =>
        have hbyte := pointer.toNat_lt
        rw [Nat.add_zero,Nat.mod_eq_of_lt (by omega)] at hhit
        exact absurd hhit hnow
      | succ k =>
        refine ih (nextPointer_lt hp) (Nat.lt_of_succ_lt_succ hk) ?_
        rwa [nextPointer_toNat hp,Nat.mod_add_mod,Nat.add_assoc,Nat.add_comm 1 k]

theorem nruScan_isSome_of_way {w : ℕ} (hw : w < min s.associativity 256)
    (hhit : (lruBits w=0 ∨ haveZeroBit=false) ∧ s.isValidReplacement w) :
    (s.nruScan lruBits haveZeroBit s.associativity pointer).isSome := by
  have hbyte := pointer.toNat_lt
  set m := min s.associativity 256 with hm
  have hreach : (pointer.toNat+(w+m - pointer.toNat) % m) % m=w := by
    rw [Nat.add_mod_mod,show pointer.toNat+(w+m - pointer.toNat)=w+m by omega,Nat.add_mod_right,
      Nat.mod_eq_of_lt hw]
  have hround : (w+m - pointer.toNat) % m<s.associativity :=
    (Nat.mod_lt _ (by omega)).trans_le (Nat.min_le_left _ _)
  refine nruScan_isSome hp hround ?_
  rw [← hm,hreach]
  exact hhit

end

theorem touchNru_sound {n : ℕ} {valid : ℕ → Prop} (hp : pointer.toNat<n)
    (hbits : 256≤n → ∀i<n,valid i → lruBits i≠0) (numBitsSet : UInt8) (accessed : ℕ) :
    (Replacement.nru (touchNru n lruBits numBitsSet accessed).1
      (touchNru n lruBits numBitsSet accessed).2 pointer).Sound n fun i => i=accessed ∨ valid i := by
  refine ⟨hp,fun hn i hi hv => touchNru_ne_zero hn lruBits numBitsSet accessed fun hne => ?_⟩
  exact hbits hn i hi (hv.resolve_left hne)

/-- With all switched-on ways in use, the NRU search succeeds: in a set of at most 256 ways
it visits every way, and in a larger one no candidate has its bit clear. -/
theorem Open.nruScan_isSome (h : s.Open) {numBitsSet : UInt8} (hs : (Replacement.nru lruBits
    numBitsSet pointer).Sound s.associativity fun i => (s.infos i).isValid)
    (hfull : ∀i<s.activeWays,(s.infos i).isValid=true) :
    (s.nruScan lruBits ((List.range s.associativity).any fun i =>
      lruBits i == 0 && s.isValidReplacement i) s.associativity pointer).isSome := by
  obtain ⟨hp,hlarge⟩:=hs
  have hle := h.le
  cases hzero : (List.range s.associativity).any fun i =>
      lruBits i == 0 && s.isValidReplacement i with
  | false =>
    have hpos := h.pos
    exact nruScan_isSome_of_way hp (w:=0) (by omega) ⟨.inr rfl,h.isValidReplacement h.pos⟩
  | true =>
    simp only [any_eq_true,mem_range,Bool.and_eq_true,beq_iff_eq] at hzero
    obtain ⟨w,hw,hbit,hvalid⟩:=hzero
    have hactive := isValidReplacement_lt hvalid
    by_cases hn : 256 ≤ s.associativity
    · exact absurd hbit (hlarge hn w hw (hfull w hactive))
    · exact nruScan_isSome_of_way hp (w:=w) (by omega) ⟨.inl hbit,hvalid⟩

theorem Open.randomIndex (h : s.Open) {calls : ℕ} (hcalls : 0<calls) (seed : UInt32) :
    ∃i seed',s.randomIndex calls seed = .ok (i,seed') ∧ i<s.activeWays := by
  obtain ⟨calls,rfl⟩:=Nat.exists_eq_succ_of_ne_zero hcalls.ne'
  rw [CacheSet.randomIndex]
  cases hfirst : s.firstInvalid with
  | some i => exact ⟨i,seed,rfl,firstInvalid_lt hfirst⟩
  | none =>
    have hlt : (nextRandom seed).2 % s.activeWays<s.activeWays := Nat.mod_lt _ h.pos
    simp only [h.isValidReplacement hlt,if_true]
    exact ⟨_,_,rfl,hlt⟩

theorem Open.getReplacementIndex (h : s.Open)
    (hs : s.replacement.Sound s.associativity fun i => (s.infos i).isValid) {calls : ℕ} (hcalls : 0<calls)
    (info : ChirpInfo) : ∃i replacement info',s.getReplacementIndex info calls = .ok (i,replacement,info') ∧
      i<s.activeWays ∧ replacement.Sound s.associativity fun w => w=i ∨ (s.infos w).isValid := by
  unfold CacheSet.getReplacementIndex
  cases hr : s.replacement with
  | lru lruBits =>
    refine ⟨_,_,_,rfl,?_,trivial⟩
    cases hfirst : s.firstInvalid with
    | some i => exact firstInvalid_lt hfirst
    | none => exact lruScan_lt lruBits h.pos
  | mru lruBits =>
    rw [hr] at hs
    have hfound : (s.firstInvalid.or (s.mruScan lruBits)).isSome := by
      rw [Option.isSome_or,h.mruScan_isSome hs,Bool.or_true]
    obtain ⟨i,hi⟩:=Option.isSome_iff_exists.mp hfound
    have hlt : i<s.activeWays := by
      rcases Option.or_eq_some_iff.mp hi with hi | ⟨-,hi⟩
      · exact firstInvalid_lt hi
      · exact mruScan_lt hi
    simp only [hi]
    exact ⟨i,_,_,rfl,hlt,moveToMru_lt hs i (hlt.trans_le h.le)⟩
  | nru lruBits numBitsSet pointer =>
    rw [hr] at hs
    dsimp only
    split
    next i hfirst =>
      have hi := List.find?_some hfirst
      simp only [Bool.and_eq_true,decide_eq_true_eq] at hi
      exact ⟨i,_,_,rfl,hi.1,touchNru_sound hs.1 hs.2 numBitsSet i⟩
    next hfirst =>
      have hfull : ∀i<s.activeWays,(s.infos i).isValid=true := by
        intro i hi
        have := List.find?_eq_none.mp hfirst i (mem_range.mpr (hi.trans_le h.le))
        simpa [hi] using this
      obtain ⟨⟨i,pointer'⟩,hscan⟩:=Option.isSome_iff_exists.mp (h.nruScan_isSome hs hfull)
      obtain ⟨hlt,hp'⟩:=nruScan_lt hs.1 hscan
      simp only [hscan]
      exact ⟨i,_,_,rfl,hlt,touchNru_sound hp' hs.2 numBitsSet i⟩
  | random seed =>
    obtain ⟨i,seed',hi,hlt⟩:=h.randomIndex hcalls seed
    dsimp only
    rw [hi]
    exact ⟨i,_,_,rfl,hlt,trivial⟩
  | chirp lruBits sig predDead firstHit =>
    dsimp only
    cases hfirst : s.firstInvalid with
    | some i => exact ⟨i,_,_,rfl,firstInvalid_lt hfirst,trivial⟩
    | none => exact ⟨_,_,_,rfl,chirpVictim_lt lruBits predDead h.pos,trivial⟩

theorem updateReplacementIndex_sound {valid : ℕ → Prop} (hs : s.replacement.Sound s.associativity valid)
    (info : ChirpInfo) (hi : i<s.associativity) :
    (s.updateReplacementIndex info i).1.Sound s.associativity valid := by
  unfold updateReplacementIndex
  cases hr : s.replacement with
  | mru lruBits =>
    rw [hr] at hs
    exact moveToMru_lt hs i hi
  | nru lruBits numBitsSet pointer =>
    rw [hr] at hs
    exact (touchNru_sound hs.1 hs.2 numBitsSet i).mono fun _ _ hv => .inr hv
  | _ => trivial

end CacheSet

end Sniper.WayGating
