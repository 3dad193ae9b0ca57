import Sniper.RadixPageTable
import Sniper.WayGating

/-!
# Page walk caches

After a walk, `RadixFilter` takes the accesses away that hit in the cache of their level. A lookup
that misses inserts the address.
-/

namespace Sniper.PageWalks
open WayGating RadixPageTable FallibleRuns List

/-- One cache of a `PWC`: lines of 8 bytes and a number of sets that is a power of two. -/
def pwcGeometry (associativity : ℕ) (pos : 0<associativity) (logNumSets : ℕ) : Geometry where
  associativity := associativity
  associativity_pos := pos
  numSets := 2^logNumSets
  blocksize := 8
  hash := fun addr => ((addr >>> 3) &&& UInt64.ofNat (2^logNumSets - 1)).toNat
  hasFakeSet := false

structure Pwc where
  caches : List Cache

def Pwc.lookup (pwc : Pwc) (address : UInt64) (level : ℕ) : Except Abort (Bool × Pwc) :=
  match pwc.caches[level]? with
  | none => .error .outOfBounds
  | some c => do
    let (block,c) ← c.accessSingleLine address false none 0 true false
    match block with
    | some _ => .ok (true,⟨pwc.caches.set level c⟩)
    | none => do
      let (_,c) ← c.insertSingleLine 1 address none .pageTableData
      .ok (false,⟨pwc.caches.set level c⟩)

/-- The filter of a radix page table; the caches exist only if they are enabled. -/
structure RadixFilter where
  maxPwcLevel : ℕ
  pwc : Option Pwc

/-- Whether an access hits; only the upper levels are looked up. -/
def lookupAccess (maxPwcLevel : ℕ) (pwc : Pwc) (access : PTWAccess) : Except Abort (Bool × Pwc) :=
  if access.depth < maxPwcLevel then
    pwc.lookup (UInt64.ofNat access.physicalAddress) access.depth
  else .ok (false,pwc)

/-- The loop of `filterPTWResult`: the accesses that stay. -/
def filterAccesses (maxPwcLevel : ℕ) : Pwc → List PTWAccess → Except Abort (List PTWAccess × Pwc)
  | pwc,[] => .ok ([],pwc)
  | pwc,access::rest => do
    let (pwcHit,pwc) ← lookupAccess maxPwcLevel pwc access
    let (kept,pwc) ← filterAccesses maxPwcLevel pwc rest
    .ok (if pwcHit then kept else access::kept,pwc)

/-- The list of accesses is filled only if the caches are enabled. The frames that a fault asks for
are not passed on. -/
def RadixFilter.filterPTWResult (f : RadixFilter) (r : PTWResult) : Except Abort (PTWResult × RadixFilter) :=
  match f.pwc with
  | some pwc => do
    let (accesses,pwc) ← filterAccesses f.maxPwcLevel pwc r.accesses
    .ok (⟨r.pageSize,accesses,r.ppn,r.faultHappened,0⟩,{f with pwc:=some pwc})
  | none => .ok (⟨r.pageSize,[],r.ppn,r.faultHappened,0⟩,f)

def Pwc.holds (pwc : Pwc) (address : UInt64) (level : ℕ) : Bool :=
  match pwc.caches[level]? with
  | none => false
  | some c => (c.locate (c.geometry.hash address) (c.tagOf address)).isSome

/-- Access `i` is at a level that is cached, and the cache holds its address when the accesses
before it are done. -/
def hitsAt (maxPwcLevel : ℕ) (pwc : Pwc) (accesses : List PTWAccess) (i : ℕ) : Bool :=
  match accesses[i]?,filterAccesses maxPwcLevel pwc (accesses.take i) with
  | some access,.ok (_,pwc) => decide (access.depth < maxPwcLevel) &&
      pwc.holds (UInt64.ofNat access.physicalAddress) access.depth
  | _,_ => false

/-- The accesses that do not satisfy `p`, which is asked for their places in the list. -/
def withoutPlaces {α : Type} (l : List α) (p : ℕ → Bool) : List α :=
  (List.range l.length).filterMap fun i => if p i then none else l[i]?

/-- The accesses that miss; without caches all of them do. -/
def RadixFilter.misses (f : RadixFilter) (accesses : List PTWAccess) : List PTWAccess :=
  match f.pwc with
  | some pwc => withoutPlaces accesses (hitsAt f.maxPwcLevel pwc accesses)
  | none => accesses

/-- Every level has its cache, in any state that the calls of a cache can lead to. -/
def Pwc.Shaped (maxPwcLevel : ℕ) (pwc : Pwc) : Prop :=
  pwc.caches.length=maxPwcLevel ∧ ∀c∈pwc.caches,∃associativity pos logNumSets active,
    c.Gated (pwcGeometry associativity pos logNumSets) active

def RadixFilter.Shaped (f : RadixFilter) : Prop := ∀pwc,f.pwc=some pwc → pwc.Shaped f.maxPwcLevel

theorem pwcGeometry_hash_lt (associativity : ℕ) (pos : 0<associativity) (logNumSets : ℕ) (addr : UInt64) :
    (pwcGeometry associativity pos logNumSets).hash addr <
      (pwcGeometry associativity pos logNumSets).numSets := by
  have hle : (addr >>> 3 &&& UInt64.ofNat (2^logNumSets - 1)).toNat≤2^logNumSets - 1 := by
    rw [UInt64.toNat_and,UInt64.toNat_ofNat']
    exact Nat.and_le_right.trans (Nat.mod_le _ _)
  have hpos := Nat.two_pow_pos logNumSets
  show (addr >>> 3 &&& UInt64.ofNat (2^logNumSets - 1)).toNat<2^logNumSets
  omega

theorem accessSingleLine_holds {c : Cache} {g : Geometry} {active : ℕ} (h : c.Gated g active)
    (hblocksize : g.blocksize=8) {addr : UInt64} (haddr : g.hash addr<g.numSets) :
    ∃block c',c.accessSingleLine addr false none 0 true false = .ok (block,c') ∧
      block.isSome=(c.locate (c.geometry.hash addr) (c.tagOf addr)).isSome := by
  have hset : c.setOf addr = .ok (c.geometry.hash addr) := by
    rw [Cache.setOf,if_pos (h.geometry_eq ▸ haddr)]
  rw [Cache.accessSingleLine,hset,ok_bind]
  cases hlocate : c.locate (c.geometry.hash addr) (c.tagOf addr) with
  | none => exact ⟨none,c,rfl,rfl⟩
  | some found =>
    obtain ⟨id,s,way⟩:=found
    have hoffset : ¬ c.geometry.blocksize <
        (addr &&& UInt64.ofNat (c.geometry.blocksize - 1)).toNat+0 := by
      rw [h.geometry_eq,hblocksize,Nat.add_zero,not_lt,UInt64.toNat_and]
      exact Nat.and_le_right.trans (by decide)
    simp only [Bool.false_and,Bool.false_eq_true,if_false,if_neg hoffset]
    exact ⟨_,_,rfl,rfl⟩

section Lookup

variable {maxPwcLevel : ℕ} {pwc : Pwc}

theorem Pwc.Shaped.set (h : pwc.Shaped maxPwcLevel) {level : ℕ} {c : Cache}
    (hc : ∃associativity pos logNumSets active,c.Gated (pwcGeometry associativity pos logNumSets) active) :
    Pwc.Shaped maxPwcLevel ⟨pwc.caches.set level c⟩ := by
  refine ⟨(length_set ..).trans h.1,fun d hd => ?_⟩
  rcases mem_or_eq_of_mem_set hd with hd | rfl
  · exact h.2 d hd
  · exact hc

theorem Pwc.lookup_holds (h : pwc.Shaped maxPwcLevel) (address : UInt64) {level : ℕ}
    (hlevel : level < maxPwcLevel) :
    ∃pwc',pwc.lookup address level = .ok (pwc.holds address level,pwc') ∧ pwc'.Shaped maxPwcLevel := by
  have hlt : level<pwc.caches.length := h.1 ▸ hlevel
  obtain ⟨c,hc⟩ : ∃c,pwc.caches[level]?=some c:=⟨_,List.getElem?_eq_getElem hlt⟩
  obtain ⟨associativity,pos,logNumSets,active,hgated⟩:=h.2 c (mem_of_getElem? hc)
  have haddr := pwcGeometry_hash_lt associativity pos logNumSets address
  obtain ⟨block,c',haccess,hfound⟩:=accessSingleLine_holds hgated rfl haddr
  have hgated' := hgated.accessSingleLine haccess
  simp only [Pwc.lookup,Pwc.holds,hc,haccess,ok_bind,← hfound]
  cases block with
  | some b => exact ⟨_,rfl,h.set ⟨associativity,pos,logNumSets,active,hgated'⟩⟩
  | none =>
    obtain ⟨out,c'',hinsert,-,hgated''⟩:=hgated'.insertSingleLine Nat.one_pos haddr none .pageTableData
    simp only [hinsert,ok_bind]
    exact ⟨_,rfl,h.set ⟨associativity,pos,logNumSets,active,hgated''⟩⟩

theorem withoutPlaces_cons {α : Type} (a : α) (l : List α) (p : ℕ → Bool) :
    withoutPlaces (a::l) p =
      if p 0 then withoutPlaces l fun i => p (i+1)
      else a::withoutPlaces l fun i => p (i+1) := by
  have htail : (List.map Nat.succ (List.range l.length)).filterMap
      (fun i => if p i then none else (a::l)[i]?)=withoutPlaces l fun i => p (i+1) := by
    rw [filterMap_map]
    rfl
  rw [withoutPlaces,length_cons,range_succ_eq_map,filterMap_cons,htail]
  cases p 0 with
  | true => rfl
  | false => rfl

theorem lookupAccess_holds (h : pwc.Shaped maxPwcLevel) (access : PTWAccess) :
    ∃pwc',lookupAccess maxPwcLevel pwc access = .ok (decide (access.depth < maxPwcLevel) &&
        pwc.holds (UInt64.ofNat access.physicalAddress) access.depth,pwc') ∧ pwc'.Shaped maxPwcLevel := by
  rw [lookupAccess]
  by_cases hdepth : access.depth < maxPwcLevel
  · rw [if_pos hdepth,decide_eq_true hdepth,Bool.true_and]
    exact Pwc.lookup_holds h _ hdepth
  · rw [if_neg hdepth,decide_eq_false hdepth,Bool.false_and]
    exact ⟨pwc,rfl,h⟩

theorem filterAccesses_cons {access : PTWAccess} {rest kept : List PTWAccess} {hit : Bool}
    {pwc' pwc'' : Pwc} (h : lookupAccess maxPwcLevel pwc access = .ok (hit,pwc'))
    (hrest : filterAccesses maxPwcLevel pwc' rest = .ok (kept,pwc'')) :
    filterAccesses maxPwcLevel pwc (access::rest) =
      .ok (if hit then kept else access::kept,pwc'') := by
  rw [filterAccesses,h,ok_bind]
  simp only [hrest,ok_bind]

theorem filterAccesses_ok (h : pwc.Shaped maxPwcLevel) (accesses : List PTWAccess) :
    ∃kept pwc',filterAccesses maxPwcLevel pwc accesses = .ok (kept,pwc') ∧ pwc'.Shaped maxPwcLevel := by
  induction accesses generalizing pwc with
  | nil => exact ⟨[],pwc,rfl,h⟩
  | cons access rest ih =>
    obtain ⟨pwc',hfirst,hshaped⟩:=lookupAccess_holds h access
    obtain ⟨kept,pwc'',hrest,hshaped'⟩:=ih hshaped
    exact ⟨_,pwc'',filterAccesses_cons hfirst hrest,hshaped'⟩

theorem hitsAt_zero (access : PTWAccess) (rest : List PTWAccess) :
    hitsAt maxPwcLevel pwc (access::rest) 0=(decide (access.depth < maxPwcLevel) &&
      pwc.holds (UInt64.ofNat access.physicalAddress) access.depth) := rfl

theorem hitsAt_succ {access : PTWAccess} {hit : Bool} {pwc' : Pwc}
    (hfirst : lookupAccess maxPwcLevel pwc access = .ok (hit,pwc')) (hshaped : pwc'.Shaped maxPwcLevel)
    (rest : List PTWAccess) (i : ℕ) :
    hitsAt maxPwcLevel pwc (access::rest) (i+1)=hitsAt maxPwcLevel pwc' rest i := by
  obtain ⟨kept,pwc'',hrest,-⟩:=filterAccesses_ok hshaped (rest.take i)
  rw [hitsAt,hitsAt,take_succ_cons,List.getElem?_cons_succ,hrest,filterAccesses_cons hfirst hrest]
  cases rest[i]? with
  | none => rfl
  | some a => rfl

theorem filterAccesses_misses (h : pwc.Shaped maxPwcLevel) (accesses : List PTWAccess) :
    ∃pwc',filterAccesses maxPwcLevel pwc accesses =
      .ok (withoutPlaces accesses (hitsAt maxPwcLevel pwc accesses),pwc') := by
  induction accesses generalizing pwc with
  | nil => exact ⟨pwc,rfl⟩
  | cons access rest ih =>
    obtain ⟨pwc',hfirst,hshaped⟩:=lookupAccess_holds h access
    obtain ⟨pwc'',hrest⟩:=ih hshaped
    refine ⟨pwc'',?_⟩
    rw [filterAccesses_cons hfirst hrest,withoutPlaces_cons,hitsAt_zero]
    simp only [hitsAt_succ hfirst hshaped]

end Lookup

/-- For every walk and every content of the caches, the filter returns the accesses that miss, in
order and with page size, frame and fault as they were, exactly when the caches are enabled or there
is no access. -/
theorem filter_exact_iff (f : RadixFilter) (hf : f.Shaped) (r : PTWResult) :
    (∃r' f',f.filterPTWResult r = .ok (r',f') ∧ r'.accesses=f.misses r.accesses ∧
        r'.pageSize=r.pageSize ∧ r'.ppn=r.ppn ∧ r'.faultHappened=r.faultHappened) ↔
      f.pwc.isSome ∨ r.accesses=[] := by
  cases hpwc : f.pwc with
  | some pwc =>
    refine iff_of_true ?_ (Or.inl rfl)
    obtain ⟨pwc',hfilter⟩:=filterAccesses_misses (hf pwc hpwc) r.accesses
    simp only [RadixFilter.filterPTWResult,RadixFilter.misses,hpwc,hfilter,ok_bind]
    exact ⟨_,_,rfl,rfl,rfl,rfl,rfl⟩
  | none =>
    simp only [RadixFilter.filterPTWResult,RadixFilter.misses,hpwc,Option.isSome_none,Bool.false_eq_true,
      false_or]
    constructor
    · rintro ⟨r',f',heq,haccesses,-⟩
      cases heq
      exact haccesses.symm
    · intro hnone
      exact ⟨_,_,rfl,hnone.symm,rfl,rfl,rfl⟩

def smallFilter : RadixFilter :=
  ⟨1,some ⟨[.new (pwcGeometry 1 Nat.one_pos 0) .lru false (.new 1 Nat.one_pos 0)]⟩⟩

theorem smallFilter_shaped : smallFilter.Shaped := by
  intro pwc hpwc
  cases hpwc
  refine ⟨rfl,fun c hc => ?_⟩
  rw [mem_singleton] at hc
  rw [hc]
  exact ⟨1,Nat.one_pos,0,1,Cache.gated_new _ _ _ _⟩

theorem filter_exact_of_two : ∃r' f',
    smallFilter.filterPTWResult ⟨12,[⟨0,8,false⟩,⟨0,8,false⟩,⟨1,8,true⟩],5,false,0⟩ =
      .ok (r',f') ∧ r'.ppn=5 := by
  obtain ⟨r',f',hfilter,-,-,hppn,-⟩:=(filter_exact_iff smallFilter smallFilter_shaped
    ⟨12,[⟨0,8,false⟩,⟨0,8,false⟩,⟨1,8,true⟩],5,false,0⟩).mpr (Or.inl rfl)
  exact ⟨r',f',hfilter,hppn⟩

/-- Without page walk caches no access is left. -/
theorem filter_disabled_drops : ∃r' f',RadixFilter.filterPTWResult ⟨0,none⟩
    ⟨12,[⟨0,8,true⟩],5,false,0⟩ = .ok (r',f') ∧ r'.accesses=[] :=
  ⟨_,_,rfl,rfl⟩

end Sniper.PageWalks
