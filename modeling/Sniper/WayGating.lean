import Sniper.CacheReplacement

/-!
# Switching cache ways off at run time

`Cache::setActiveWays` never goes below the highest way in use, so no block is lost or stranded.
-/

namespace Sniper.WayGating
open FallibleRuns

/-- What an insertion returns beside the new state. -/
structure Insertion where
  way : ℕ
  evicted : Option CacheBlockInfo
  evictBuff : Option (List UInt8)

namespace CacheSet

def findBelow (s : CacheSet) (tag : UInt64) : ℕ → Option ℕ
  | 0 => none
  | n+1 => if (s.infos n).tag=tag then some n else findBelow s tag n

def find (s : CacheSet) (tag : UInt64) : Option ℕ := s.findBelow tag s.associativity

def invalidate (s : CacheSet) (tag : UInt64) : Bool × CacheSet :=
  match s.find tag with
  | some i => (true,{s with infos:=Function.update s.infos i (s.infos i).invalidate})
  | none => (false,s)

variable (s : CacheSet)

/-- `memcpy` into the line of way `i`; nothing happens without a buffer or without data. -/
def copyIn (i offset : ℕ) (buff : Option (List UInt8)) (bytes : ℕ) : CacheSet :=
  match buff,s.blocks with
  | some buff,some blocks =>
    let line := blocks i
    { s with blocks:=some (Function.update blocks i
        (line.take offset++buff.take bytes++line.drop (offset+bytes))) }
  | _,_ => s

def copyOut (i offset bytes : ℕ) : Option (List UInt8) :=
  s.blocks.map fun blocks => ((blocks i).drop offset).take bytes

def insert (info : ChirpInfo) (calls : ℕ) (block : CacheBlockInfo) (fillBuff : Option (List UInt8))
    (blocksize : ℕ) : Except Abort (Insertion × CacheSet × ChirpInfo) := do
  let (i,replacement,info) ← s.getReplacementIndex info calls
  if s.associativity ≤ i then .error .assertion
  else
    let old := s.infos i
    let evictBuff := if old.isValid then s.copyOut i 0 blocksize else none
    let filled := {s with replacement,infos:=Function.update s.infos i block}
    .ok (⟨i,if old.isValid then some old else none,evictBuff⟩,filled.copyIn i 0 fillBuff blocksize,info)

def touch (info : ChirpInfo) (i : ℕ) (updateReplacement : Bool) : CacheSet × ChirpInfo :=
  if updateReplacement then
    let (replacement,info) := s.updateReplacementIndex info i
    ({s with replacement},info)
  else (s,info)

end CacheSet

/-- The parameters of a cache. `hash` is the set index of `splitAddress`; the fake set exists
in an L2 cache that metadata passes by. -/
structure Geometry where
  associativity : ℕ
  associativity_pos : 0<associativity
  numSets : ℕ
  blocksize : ℕ
  hash : UInt64 → ℕ
  hasFakeSet : Bool

structure Cache where
  geometry : Geometry
  sets : ℕ → CacheSet
  fakeSet : Option CacheSet
  info : ChirpInfo

/-- A set of a cache: set `some i`, or the fake set. -/
abbrev SetId := Option ℕ

namespace Cache

def new (g : Geometry) (policy : Policy) (hasBlocks : Bool) (info : ChirpInfo) : Cache where
  geometry := g
  sets := fun i => .new g.associativity hasBlocks g.blocksize (policy.initial i)
  fakeSet := if g.hasFakeSet then
    some (.new 1 hasBlocks g.blocksize (policy.initial g.numSets)) else none
  info := info

variable (c : Cache)

def tagOf (addr : UInt64) : UInt64 := addr >>> UInt64.ofNat (Nat.log2 c.geometry.blocksize)

/-- The set index of `splitAddress`; the arrays of sets end at `m_num_sets`. -/
def setOf (addr : UInt64) : Except Abort ℕ :=
  if c.geometry.hash addr<c.geometry.numSets then .ok (c.geometry.hash addr)
  else .error .outOfBounds

def getSet : SetId → Option CacheSet
  | some i => some (c.sets i)
  | none => c.fakeSet

def putSet (id : SetId) (s : CacheSet) : Cache :=
  match id with
  | some i => {c with sets:=Function.update c.sets i s}
  | none => {c with fakeSet:=some s}

/-- The fake set takes the metadata of a cache that has one. -/
def insertSet (i : ℕ) (btype : BlockType) : SetId :=
  if btype.isMetadata && c.fakeSet.isSome then none else some i

def insertSingleLine (calls : ℕ) (addr : UInt64) (fillBuff : Option (List UInt8)) (btype : BlockType) :
    Except Abort (Insertion × Cache) := do
  let i ← c.setOf addr
  let id := c.insertSet i btype
  match c.getSet id with
  | some s =>
    let (out,s,info) ← s.insert c.info calls ⟨c.tagOf addr,.invalid,btype⟩ fillBuff
      c.geometry.blocksize
    .ok (out,{c.putSet id s with info})
  | none => .error .nullDereference

/-- The set and the way that hold the address: the fake set comes second. -/
def locate (i : ℕ) (tag : UInt64) : Option (SetId × CacheSet × ℕ) :=
  match (c.sets i).find tag with
  | some way => some (some i,c.sets i,way)
  | none =>
    match c.fakeSet with
    | some s => (s.find tag).map fun way => (none,s,way)
    | none => none

/-- A load copies out of the line and a store into it; the result is the block that was hit. -/
def accessSingleLine (addr : UInt64) (store : Bool) (buff : Option (List UInt8)) (bytes : ℕ)
    (updateReplacement tlbEntry : Bool) : Except Abort (Option CacheBlockInfo × Cache) := do
  let i ← c.setOf addr
  match c.locate i (c.tagOf addr) with
  | none => .ok (none,c)
  | some (id,s,way) =>
    if tlbEntry && !(s.infos way).blockType.isMetadata then .ok (none,c)
    else
      let offset := (addr &&& UInt64.ofNat (c.geometry.blocksize - 1)).toNat
      if c.geometry.blocksize<offset+bytes then .error .assertion
      else
        let s := if store then s.copyIn way offset buff bytes else s
        let (s,info) := s.touch c.info way updateReplacement
        .ok (some (s.infos way),{c.putSet id s with info})

def invalidateSingleLine (addr : UInt64) : Except Abort (Bool × Cache) := do
  let i ← c.setOf addr
  let fake := c.fakeSet.map (·.invalidate (c.tagOf addr))
  let real := (c.sets i).invalidate (c.tagOf addr)
  .ok (real.1 || (fake.map Prod.fst).getD false,
    { c with
      sets := Function.update c.sets i real.2
      fakeSet := fake.map Prod.snd })

/-- One more than the highest way that holds a valid block anywhere, as the two loops of
`setActiveWays` compute it. -/
def maxUsedWays : ℕ :=
  (List.range c.geometry.numSets).foldl (fun acc i =>
    (List.range c.geometry.associativity).foldl (fun acc way =>
      if ((c.sets i).infos way).isValid ∧ acc<way+1 then way+1 else acc) acc) 0

def effectiveWays (targetWays : ℕ) : ℕ :=
  let ways := if targetWays<c.maxUsedWays then c.maxUsedWays else targetWays
  let ways := if ways<1 then 1 else ways
  if c.geometry.associativity<ways then c.geometry.associativity else ways

def setActiveWays (targetWays : ℕ) : ℕ × Cache :=
  let ways := c.effectiveWays targetWays
  (ways,{ c with sets:=fun i =>
    if i<c.geometry.numSets then {c.sets i with activeWays:=ways} else c.sets i })

end Cache

inductive CacheCall where
  | insertSingleLine (addr : UInt64) (fillBuff : Option (List UInt8)) (btype : BlockType)
  | accessSingleLine (addr : UInt64) (store : Bool) (buff : Option (List UInt8)) (bytes : ℕ)
      (updateReplacement tlbEntry : Bool)
  | invalidateSingleLine (addr : UInt64)
  | setActiveWays (targetWays : ℕ)

def CacheCall.resizes : CacheCall → Bool
  | .setActiveWays _ => true
  | _ => false

def Cache.step (calls : ℕ) (c : Cache) : CacheCall → Except Abort Cache
  | .insertSingleLine addr fillBuff btype => do
    let (_,c) ← c.insertSingleLine calls addr fillBuff btype
    .ok c
  | .accessSingleLine addr store buff bytes updateReplacement tlbEntry => do
    let (_,c) ← c.accessSingleLine addr store buff bytes updateReplacement tlbEntry
    .ok c
  | .invalidateSingleLine addr => do
    let (_,c) ← c.invalidateSingleLine addr
    .ok c
  | .setActiveWays targetWays => .ok (c.setActiveWays targetWays).2

namespace CacheSet

/-- The set has `n` ways of which the first `active` are switched on; they hold all valid
blocks, and the policy's state is in order. -/
structure Gated (n active : ℕ) (s : CacheSet) : Prop where
  associativity_eq : s.associativity=n
  activeWays_eq : s.activeWays=active
  isOpen : s.Open
  validBelow : ∀way<n,(s.infos way).isValid=true → way<active
  sound : s.replacement.Sound n fun way => (s.infos way).isValid

theorem findBelow_lt {s : CacheSet} {tag : UInt64} {n i : ℕ} (h : s.findBelow tag n=some i) : i<n := by
  induction n with
  | zero => cases h
  | succ n ih =>
    rw [findBelow] at h
    split_ifs at h
    · cases h
      exact Nat.lt_succ_self _
    · exact Nat.lt_succ_of_lt (ih h)

theorem copyIn_eq (s : CacheSet) (i offset : ℕ) (buff : Option (List UInt8)) (bytes : ℕ) :
    ∃blocks,s.copyIn i offset buff bytes={s with blocks} := by
  unfold copyIn
  split
  · exact ⟨_,rfl⟩
  · exact ⟨s.blocks,rfl⟩

section Gated

variable {s : CacheSet} {n active : ℕ}

theorem gated_new (hn : 0<n) (hasBlocks : Bool) (blocksize : ℕ) (policy : Policy) (set : ℕ) :
    (CacheSet.new n hasBlocks blocksize (policy.initial set)).Gated n n where
  associativity_eq := rfl
  activeWays_eq := rfl
  isOpen := ⟨hn,le_rfl,fun _ => by simp [CacheSet.new,CacheBlockInfo.new]⟩
  validBelow := fun _ hway _ => hway
  sound := (policy.initial_sound hn set).mono fun _ _ hv => by
    simp [CacheSet.new,CacheBlockInfo.new,CacheBlockInfo.isValid] at hv

section

variable (h : s.Gated n active)
include h

theorem Gated.copyIn (i offset : ℕ) (buff : Option (List UInt8)) (bytes : ℕ) :
    (s.copyIn i offset buff bytes).Gated n active := by
  obtain ⟨blocks,hcopy⟩:=s.copyIn_eq i offset buff bytes
  rw [hcopy]
  exact ⟨h.associativity_eq,h.activeWays_eq,⟨h.isOpen.pos,h.isOpen.le,h.isOpen.noUpgrade⟩,h.validBelow,
    h.sound⟩

theorem Gated.fill {i : ℕ} (hi : i<active) {block : CacheBlockInfo}
    (hblock : block.cstate ≠ .sharedUpgrading) {replacement : Replacement}
    (hr : replacement.Sound n fun way => way=i ∨ (s.infos way).isValid) :
    Gated n active {s with replacement,infos:=Function.update s.infos i block} := by
  refine ⟨h.associativity_eq,h.activeWays_eq,⟨h.isOpen.pos,h.isOpen.le,fun way => ?_⟩,fun way hway hv => ?_,
    hr.mono fun way _ hv => ?_⟩
  all_goals by_cases hi' : way=i
  · simpa [hi'] using hblock
  · simpa [hi'] using h.isOpen.noUpgrade way
  · exact hi' ▸ hi
  · exact h.validBelow way hway (by simpa [hi'] using hv)
  · exact .inl hi'
  · exact .inr (by simpa [hi'] using hv)

theorem Gated.insert {calls : ℕ} (hcalls : 0<calls) (info : ChirpInfo) {block : CacheBlockInfo}
    (hblock : block.cstate ≠ .sharedUpgrading) (fillBuff : Option (List UInt8)) (blocksize : ℕ) :
    ∃out s' info',s.insert info calls block fillBuff blocksize = .ok (out,s',info') ∧
      out.way<active ∧ s'.Gated n active := by
  obtain ⟨i,replacement,info',hi,hlt,hsound⟩:=
    h.isOpen.getReplacementIndex (h.associativity_eq ▸ h.sound) hcalls info
  have hle := h.isOpen.le
  rw [h.activeWays_eq] at hlt hle
  rw [h.associativity_eq] at hsound hle
  have hin : ¬ s.associativity ≤ i := by
    rw [h.associativity_eq]
    omega
  refine ⟨⟨i,if (s.infos i).isValid then some (s.infos i) else none,
    if (s.infos i).isValid then s.copyOut i 0 blocksize else none⟩,_,info',?_,hlt,
    (h.fill hlt hblock hsound).copyIn i 0 fillBuff blocksize⟩
  rw [CacheSet.insert,hi,ok_bind]
  exact if_neg hin

theorem Gated.touch (info : ChirpInfo) {i : ℕ} (hi : i<n) (updateReplacement : Bool) :
    (s.touch info i updateReplacement).1.Gated n active := by
  unfold CacheSet.touch
  split_ifs
  · have hsound := updateReplacementIndex_sound (h.associativity_eq ▸ h.sound) info
      (h.associativity_eq ▸ hi)
    exact ⟨h.associativity_eq,h.activeWays_eq,⟨h.isOpen.pos,h.isOpen.le,h.isOpen.noUpgrade⟩,h.validBelow,
      h.associativity_eq ▸ hsound⟩
  · exact h

theorem Gated.invalidate (tag : UInt64) : (s.invalidate tag).2.Gated n active := by
  unfold CacheSet.invalidate
  split
  next i _ =>
    have hgone : (s.infos i).invalidate.isValid=false := by
      simp [CacheBlockInfo.invalidate,CacheBlockInfo.isValid]
    have hkept : ∀way,(Function.update s.infos i (s.infos i).invalidate way).isValid=true →
        (s.infos way).isValid=true := by
      intro way hv
      by_cases hi : way=i
      · subst hi
        rw [Function.update_self,hgone] at hv
        cases hv
      · rwa [Function.update_of_ne hi] at hv
    refine ⟨h.associativity_eq,h.activeWays_eq,⟨h.isOpen.pos,h.isOpen.le,fun way => ?_⟩,
      fun way hway hv => h.validBelow way hway (hkept way hv),h.sound.mono fun way _ hv => hkept way hv⟩
    by_cases hi : way=i
    · simp [hi,CacheBlockInfo.invalidate]
    · simpa [hi] using h.isOpen.noUpgrade way
  next => exact h

theorem Gated.resize {ways : ℕ} (hpos : 1≤ways) (hle : ways≤n)
    (hused : ∀way<n,(s.infos way).isValid=true → way<ways) :
    Gated n ways {s with activeWays:=ways} :=
  ⟨h.associativity_eq,rfl,⟨hpos,h.associativity_eq ▸ hle,h.isOpen.noUpgrade⟩,hused,h.sound⟩

end

end Gated

end CacheSet

section Scans

variable {α : Type*} {f : ℕ → α → ℕ}

private theorem le_foldl_scan (hf : ∀acc x,acc≤f acc x) (l : List α) (acc : ℕ) : acc≤l.foldl f acc := by
  induction l generalizing acc with
  | nil => exact le_rfl
  | cons x l ih => exact (hf acc x).trans (ih _)

private theorem le_foldl_scan_of_mem (hf : ∀acc x,acc≤f acc x) {l : List α} {x : α} (hx : x∈l) {b : ℕ}
    (hb : ∀acc,b≤f acc x) (acc : ℕ) : b≤l.foldl f acc := by
  induction l generalizing acc with
  | nil => cases hx
  | cons y l ih =>
    rcases List.mem_cons.mp hx with rfl | hx
    · exact (hb acc).trans (le_foldl_scan hf l _)
    · exact ih hx _

end Scans

namespace Cache

theorem lt_maxUsedWays {c : Cache} {i way : ℕ} (hi : i<c.geometry.numSets)
    (hway : way<c.geometry.associativity) (hv : ((c.sets i).infos way).isValid=true) : way<c.maxUsedWays := by
  have hstep : ∀j acc w,acc ≤
      if ((c.sets j).infos w).isValid ∧ acc<w+1 then w+1 else acc := by
    intro j acc w
    split_ifs with h
    · exact h.2.le
    · exact le_rfl
  unfold maxUsedWays
  refine Nat.lt_of_succ_le (le_foldl_scan_of_mem
    (fun acc j => le_foldl_scan (hstep j) _ acc) (List.mem_range.mpr hi) (fun acc => ?_) 0)
  refine le_foldl_scan_of_mem (hstep i) (List.mem_range.mpr hway) (fun acc => ?_) acc
  split_ifs with h
  · exact le_rfl
  · exact Nat.le_of_not_lt fun hlt => h ⟨hv,hlt⟩

theorem one_le_effectiveWays (c : Cache) (t : ℕ) : 1 ≤ c.effectiveWays t := by
  have := c.geometry.associativity_pos
  unfold effectiveWays
  dsimp only
  split_ifs <;> omega

theorem effectiveWays_le (c : Cache) (t : ℕ) : c.effectiveWays t ≤ c.geometry.associativity := by
  unfold effectiveWays
  dsimp only
  split_ifs <;> omega

theorem lt_effectiveWays {c : Cache} {t way : ℕ} (hway : way<c.geometry.associativity)
    (hused : way<c.maxUsedWays) : way<c.effectiveWays t := by
  unfold effectiveWays
  dsimp only
  split_ifs <;> omega

/-- All sets have the first `active` ways switched on; the fake set has one way. -/
structure Gated (g : Geometry) (active : ℕ) (c : Cache) : Prop where
  geometry_eq : c.geometry=g
  pos : 1≤active
  le : active ≤ c.geometry.associativity
  sets : ∀i<c.geometry.numSets,(c.sets i).Gated c.geometry.associativity active
  fakeSet : ∀s,c.fakeSet=some s → s.Gated 1 1

theorem gated_new (g : Geometry) (policy : Policy) (hasBlocks : Bool) (info : ChirpInfo) :
    (Cache.new g policy hasBlocks info).Gated g g.associativity where
  geometry_eq := rfl
  pos := g.associativity_pos
  le := le_rfl
  sets := fun i _ => CacheSet.gated_new g.associativity_pos hasBlocks g.blocksize policy i
  fakeSet := by
    intro s hs
    simp only [Cache.new] at hs
    split_ifs at hs
    cases hs
    exact CacheSet.gated_new Nat.one_pos hasBlocks g.blocksize policy g.numSets

/-- The ways of a set, and those of them that are switched on. -/
def sizesOf (c : Cache) (active : ℕ) : SetId → ℕ × ℕ
  | some _ => (c.geometry.associativity,active)
  | none => (1,1)

section Gated

variable {g : Geometry} {c : Cache} {active : ℕ}

theorem Gated.active_le (h : c.Gated g active) (id : SetId) : (c.sizesOf active id).2≤active := by
  cases id with
  | some i => exact le_rfl
  | none => exact h.pos

variable {id : SetId} {s : CacheSet} {addr : UInt64} {i : ℕ} {c' : Cache}

theorem Gated.getSet (h : c.Gated g active) (hid : ∀i,id=some i → i<c.geometry.numSets)
    (hs : c.getSet id=some s) : s.Gated (c.sizesOf active id).1 (c.sizesOf active id).2 := by
  cases id with
  | some i =>
    cases hs
    exact h.sets i (hid i rfl)
  | none => exact h.fakeSet s hs

theorem Gated.putSet (h : c.Gated g active) (info : ChirpInfo)
    (hs : s.Gated (c.sizesOf active id).1 (c.sizesOf active id).2) :
    Gated g active {c.putSet id s with info} := by
  cases id with
  | some i =>
    refine ⟨h.geometry_eq,h.pos,h.le,fun j hj => ?_,h.fakeSet⟩
    by_cases hji : j=i
    · subst hji
      simpa [Cache.putSet,Cache.sizesOf] using hs
    · simpa [Cache.putSet,hji] using h.sets j hj
  | none =>
    refine ⟨h.geometry_eq,h.pos,h.le,h.sets,fun s' hs' => ?_⟩
    cases hs'
    exact hs

theorem setOf_ok (h : c.setOf addr = .ok i) : i=c.geometry.hash addr ∧ i<c.geometry.numSets := by
  unfold setOf at h
  split_ifs at h with hlt
  cases h
  exact ⟨rfl,hlt⟩

theorem getSet_insertSet (c : Cache) (i : ℕ) (btype : BlockType) : (c.getSet (c.insertSet i btype)).isSome := by
  unfold insertSet
  split_ifs with h
  · rw [Bool.and_eq_true] at h
    exact h.2
  · rfl

theorem insertSet_some {j : ℕ} {btype : BlockType} (h : c.insertSet i btype=some j) : j=i := by
  unfold insertSet at h
  split_ifs at h
  cases h
  rfl

section

variable (h : c.Gated g active)
include h

theorem Gated.insertSingleLine {calls : ℕ} (hcalls : 0<calls) (haddr : g.hash addr<g.numSets)
    (fillBuff : Option (List UInt8)) (btype : BlockType) :
    ∃out c',c.insertSingleLine calls addr fillBuff btype = .ok (out,c') ∧ out.way<active ∧
      c'.Gated g active := by
  have hset : c.setOf addr = .ok (c.geometry.hash addr) := by
    rw [setOf,if_pos (h.geometry_eq ▸ haddr)]
  obtain ⟨s,hs⟩:=Option.isSome_iff_exists.mp
    (c.getSet_insertSet (c.geometry.hash addr) btype)
  have hid : ∀i,c.insertSet (c.geometry.hash addr) btype=some i → i<c.geometry.numSets := by
    intro i hi
    rw [insertSet_some hi,h.geometry_eq]
    exact haddr
  have hblock : (⟨c.tagOf addr,.invalid,btype⟩ : CacheBlockInfo).cstate ≠ .sharedUpgrading := by
    simp
  obtain ⟨out,s',info',hins,hway,hs'⟩:=(h.getSet hid hs).insert hcalls c.info hblock fillBuff
    c.geometry.blocksize
  refine ⟨out,_,?_,hway.trans_le (h.active_le _),h.putSet info' hs'⟩
  rw [Cache.insertSingleLine,hset,ok_bind]
  simp only [hs,hins,ok_bind]

theorem locate_spec (hi : i<c.geometry.numSets) {tag : UInt64} {way : ℕ}
    (hl : c.locate i tag=some (id,s,way)) :
    s.Gated (c.sizesOf active id).1 (c.sizesOf active id).2 ∧ way<(c.sizesOf active id).1 := by
  unfold locate at hl
  split at hl
  next w hw =>
    cases hl
    have hs := h.sets i hi
    exact ⟨hs,(CacheSet.findBelow_lt hw).trans_eq hs.associativity_eq⟩
  next =>
    split at hl
    next s' hfake =>
      rw [Option.map_eq_some_iff] at hl
      obtain ⟨w,hw,hl⟩:=hl
      cases hl
      have hs := h.fakeSet _ hfake
      exact ⟨hs,(CacheSet.findBelow_lt hw).trans_eq hs.associativity_eq⟩
    next => cases hl

theorem Gated.accessSingleLine {store : Bool} {buff : Option (List UInt8)} {bytes : ℕ}
    {updateReplacement tlbEntry : Bool} {r : Option CacheBlockInfo}
    (he : c.accessSingleLine addr store buff bytes updateReplacement tlbEntry = .ok (r,c')) :
    c'.Gated g active := by
  obtain ⟨i,hset,he⟩:=bind_ok he
  obtain ⟨-,hi⟩:=setOf_ok hset
  split at he
  next =>
    cases he
    exact h
  next id s way hl =>
    obtain ⟨hs,hway⟩:=locate_spec h hi hl
    dsimp only at he
    split_ifs at he
    · cases he
      exact h
    · cases he
      exact h.putSet _ ((hs.copyIn _ _ _ _).touch _ hway _)
    · cases he
      exact h.putSet _ (hs.touch _ hway _)

theorem Gated.invalidateSingleLine {r : Bool} (he : c.invalidateSingleLine addr = .ok (r,c')) :
    c'.Gated g active := by
  obtain ⟨i,hset,he⟩:=bind_ok he
  obtain ⟨-,hi⟩:=setOf_ok hset
  cases he
  refine ⟨h.geometry_eq,h.pos,h.le,fun j hj => ?_,fun s hs => ?_⟩
  · by_cases hji : j=i
    · subst hji
      simpa using (h.sets j hj).invalidate (c.tagOf addr)
    · simpa [hji] using h.sets j hj
  · simp only [Option.map_map,Option.map_eq_some_iff] at hs
    obtain ⟨s',hs',rfl⟩:=hs
    exact (h.fakeSet s' hs').invalidate (c.tagOf addr)

theorem Gated.setActiveWays (t : ℕ) : (c.setActiveWays t).2.Gated g (c.setActiveWays t).1 := by
  refine ⟨h.geometry_eq,c.one_le_effectiveWays t,c.effectiveWays_le t,fun i hi => ?_,h.fakeSet⟩
  have hset := (h.sets i hi).resize (c.one_le_effectiveWays t) (c.effectiveWays_le t)
    fun way hway hv => lt_effectiveWays hway (lt_maxUsedWays hi hway hv)
  have hi' : i<c.geometry.numSets := hi
  simpa [Cache.setActiveWays,hi'] using hset

theorem Gated.step {calls : ℕ} (hcalls : 0<calls) {call : CacheCall} (hcall : call.resizes=false)
    (he : c.step calls call = .ok c') : c'.Gated g active := by
  cases call with
  | insertSingleLine addr fillBuff btype =>
    obtain ⟨⟨out,c₁⟩,hins,he⟩:=bind_ok he
    cases he
    obtain ⟨i,hset,-⟩:=bind_ok hins
    obtain ⟨rfl,hi⟩:=setOf_ok hset
    obtain ⟨out',c₂,hins',-,hg⟩:=h.insertSingleLine hcalls (h.geometry_eq ▸ hi) fillBuff btype
    cases hins.symm.trans hins'
    exact hg
  | accessSingleLine addr store buff bytes updateReplacement tlbEntry =>
    obtain ⟨⟨r,c₁⟩,hacc,he⟩:=bind_ok he
    cases he
    exact h.accessSingleLine hacc
  | invalidateSingleLine addr =>
    obtain ⟨⟨r,c₁⟩,hinv,he⟩:=bind_ok he
    cases he
    exact h.invalidateSingleLine hinv
  | setActiveWays t => cases hcall

end

end Gated

theorem Gated.step_exists {g : Geometry} {c c' : Cache} {calls : ℕ} {call : CacheCall}
    (h : ∃active,c.Gated g active) (hcalls : 0<calls) (he : c.step calls call = .ok c') :
    ∃active,c'.Gated g active := by
  obtain ⟨active,h⟩:=h
  cases hcall : call.resizes with
  | false => exact ⟨active,h.step hcalls hcall he⟩
  | true =>
    cases call with
    | setActiveWays t =>
      cases he
      exact ⟨_,h.setActiveWays t⟩
    | _ => cases hcall

/-- What holds of a call of `setActiveWays` in the state `c`, with the calls that follow it. -/
structure GatesSafely (calls : ℕ) (c : Cache) (targetWays : ℕ) : Prop where
  /-- the tags, states, types and data of all blocks stay as they are -/
  keepsBlocks : ∀id,
    ((c.setActiveWays targetWays).2.getSet id).map (fun s => (s.infos,s.blocks)) =
      (c.getSet id).map fun s => (s.infos,s.blocks)
  atLeastOne : 1≤(c.setActiveWays targetWays).1
  atMostAll : (c.setActiveWays targetWays).1 ≤ c.geometry.associativity
  validBelow : ∀id s,(c.setActiveWays targetWays).2.getSet id=some s →
    (∀i,id=some i → i<c.geometry.numSets) →
    ∀way<s.associativity,(s.infos way).isValid=true → way<(c.setActiveWays targetWays).1
  /-- until the next resize every insertion succeeds with a way that is switched on -/
  victims : ∀later,(∀call∈later,call.resizes=false) → ∀c',
    run (step calls) (c.setActiveWays targetWays).2 later = .ok c' →
    ∀addr fillBuff btype,c.geometry.hash addr<c.geometry.numSets →
      ∃out c'',c'.insertSingleLine calls addr fillBuff btype = .ok (out,c'') ∧
        out.way<(c.setActiveWays targetWays).1

theorem setActiveWays_keeps (c : Cache) (targetWays : ℕ) (id : SetId) :
    ((c.setActiveWays targetWays).2.getSet id).map (fun s => (s.infos,s.blocks)) =
      (c.getSet id).map fun s => (s.infos,s.blocks) := by
  cases id with
  | none => rfl
  | some i =>
    simp only [Cache.setActiveWays,Cache.getSet,Option.map_some]
    split_ifs <;> rfl

/-- In every state that any sequence of calls reaches, switching ways on or off touches no
block, leaves every valid block in a way that is on, and binds every later insertion. -/
theorem way_gating_safe (g : Geometry) (policy : Policy) (hasBlocks : Bool) (info : ChirpInfo) {calls : ℕ}
    (hcalls : 0<calls) {history : List CacheCall} {c : Cache}
    (hrun : run (step calls) (Cache.new g policy hasBlocks info) history = .ok c) (targetWays : ℕ) :
    c.GatesSafely calls targetWays := by
  obtain ⟨active,h⟩ : ∃active,c.Gated g active:=
    run_invariant (G:=fun _ _ => True) (fun _ _ _ h _ he => Gated.step_exists h hcalls he)
      ⟨_,gated_new g policy hasBlocks info⟩ (along_of_forall (fun _ _ => trivial) _ _) hrun
  have hnow := h.setActiveWays targetWays
  refine ⟨c.setActiveWays_keeps targetWays,hnow.pos,c.effectiveWays_le targetWays,
    fun id s hs hid way hway hv => ?_,fun later hlater c' hr addr fillBuff btype haddr => ?_⟩
  · have hset := hnow.getSet hid hs
    have hlt := hset.validBelow way (hway.trans_eq hset.associativity_eq) hv
    exact hlt.trans_le (hnow.active_le id)
  · have hthen : c'.Gated g (c.setActiveWays targetWays).1 :=
      run_invariant (fun _ _ _ h hG he => h.step hcalls hG he) hnow
        (along_of_mem hlater _) hr
    rw [h.geometry_eq] at haddr
    obtain ⟨out,c'',hins,hway,-⟩:=hthen.insertSingleLine hcalls haddr fillBuff btype
    exact ⟨out,c'',hins,hway⟩

/-- Two sets of four ways, 64-byte blocks and the hash of a mask. -/
def smallGeometry : Geometry := ⟨4,by decide,2,64,fun addr => ((addr >>> 6) &&& 1).toNat,false⟩

/-- Two blocks of one set are in use, so a request for one way leaves two switched on. -/
theorem way_gating_safe_nru :
    ∃c,run (step 1) (Cache.new smallGeometry .nru true (.new 4 (by decide) 2))
      [.insertSingleLine 0 none .data,.insertSingleLine 128 none .data,
        .accessSingleLine 0 true (some [7]) 1 true false] = .ok c ∧
    (c.setActiveWays 1).1=2 ∧ c.GatesSafely 1 1 :=
  exists_ok_and (P:=fun _ => True) (by decide +kernel)
    fun _ hc _ => way_gating_safe smallGeometry .nru true _ Nat.one_pos hc 1

end Cache

end Sniper.WayGating
