import Sniper.FallibleRuns
import Sniper.MachineValues

/-!
# The swap space of `swap_space.cc`

A slot index is below the swap size, an `int`, so it is never the `-1` that stands for no slot.
-/

namespace Sniper.Swap
open FallibleRuns List

structure SwapKey where
  virtualPage : UInt64
  appId : Int32
  deriving DecidableEq

structure SwapStats where
  swapIns : ℕ
  swapOuts : ℕ
  failedSwapOutsSpace : ℕ
  deriving DecidableEq

structure SwapCache where
  swapSize : ℕ
  freePages : List Bool
  swapCacheMap : AList (fun _ : SwapKey => ℕ)
  stats : SwapStats

inductive SwapCall where
  | swapOut (key : SwapKey) (isMemoryFull : Bool)
  | swapIn (key : SwapKey)

namespace SwapCache

def new (swapSize : ℕ) : SwapCache := ⟨swapSize,List.replicate swapSize false,∅,⟨0,0,0⟩⟩

def lookup (s : SwapCache) (key : SwapKey) : Bool := (s.swapCacheMap.lookup key).isSome

section

variable (s : SwapCache)

def findFreePage : Option ℕ × SwapCache :=
  match s.freePages.findIdx? fun used => !used with
  | none => (none,s)
  | some i => (some i,{s with freePages:=s.freePages.set i true})

def swapOut (key : SwapKey) (_isMemoryFull : Bool) : Bool × SwapCache :=
  match s.findFreePage with
  | (none,s) => (false,s)
  | (some location,s) =>
    let s := {s with swapCacheMap:=s.swapCacheMap.insert key location}
    if s.swapCacheMap.keys.length > s.swapSize then
      (false,{ s with stats:={ s.stats with
        failedSwapOutsSpace := s.stats.failedSwapOutsSpace+1 } })
    else (true,{s with stats:={s.stats with swapOuts:=s.stats.swapOuts+1}})

def swapIn (key : SwapKey) : SwapCache :=
  { s with
    swapCacheMap := s.swapCacheMap.erase key
    stats := {s.stats with swapIns:=s.stats.swapIns+1} }

def step : SwapCall → Except Abort SwapCache
  | .swapOut key isMemoryFull => .ok (s.swapOut key isMemoryFull).2
  | .swapIn key => .ok (s.swapIn key)

/-- A slot is used exactly when one and only one page is swapped out to it. -/
def Accounted : Prop :=
  ∀i<s.freePages.length,s.freePages[i]?=some true ↔ ∃! key,s.swapCacheMap.lookup key=some i

/-- Swapping out fails exactly when all slots are taken by pages, and then changes nothing. -/
def RefusesWhenFull : Prop :=
  ∀key full,((s.swapOut key full).1=false ↔ s.swapCacheMap.keys.length=s.freePages.length) ∧
    ((s.swapOut key full).1=false → (s.swapOut key full).2.swapCacheMap=s.swapCacheMap ∧
      (s.swapOut key full).2.freePages=s.freePages)

/-- No page that is swapped out is swapped in, or swapped out again while a slot is free. -/
def Fresh : SwapCall → Prop
  | .swapOut key _ => key∈s.swapCacheMap → false∉s.freePages
  | .swapIn key => key∉s.swapCacheMap

end

instance : ∀ (s : SwapCache) (i : SwapCall),Decidable (s.Fresh i)
  | s,.swapOut key _ => inferInstanceAs (Decidable (key∈s.swapCacheMap → false∉s.freePages))
  | s,.swapIn key => inferInstanceAs (Decidable (key∉s.swapCacheMap))

/-- The used slots are those that the map points to, each once. -/
structure Tight (s : SwapCache) : Prop where
  length : s.freePages.length=s.swapSize
  size : s.swapCacheMap.keys.length=s.freePages.count true
  used : ∀key i,s.swapCacheMap.lookup key=some i → s.freePages[i]?=some true
  page : ∀i,s.freePages[i]?=some true → ∃key,s.swapCacheMap.lookup key=some i
  inj : ∀key key' i,s.swapCacheMap.lookup key=some i → s.swapCacheMap.lookup key'=some i →
    key=key'

theorem new_tight (swapSize : ℕ) : (new swapSize).Tight := by
  refine ⟨length_replicate,?_,fun key i h => ?_,fun i h => ?_,fun key key' i h => ?_⟩
  · rw [new,count_replicate,if_neg (by decide)]
    rfl
  · cases h
  · rw [new,List.getElem?_replicate] at h
    split_ifs at h
    cases h
  · cases h

variable {s : SwapCache} {key : SwapKey} {full : Bool}

theorem findFreePage_none (h : s.freePages.findIdx? (fun used => !used)=none) :
    s.findFreePage=(none,s) ∧ false∉s.freePages := by
  refine ⟨by rw [findFreePage,h],fun hmem => ?_⟩
  have hall := List.findIdx?_eq_none_iff.mp h false hmem
  cases hall

theorem findFreePage_some {i : ℕ} (h : s.freePages.findIdx? (fun used => !used)=some i) :
    s.findFreePage=(some i,{s with freePages:=s.freePages.set i true}) ∧
      s.freePages[i]?=some false := by
  refine ⟨by rw [findFreePage,h],?_⟩
  obtain ⟨hlt,hfree,-⟩:=List.findIdx?_eq_some_iff_getElem.mp h
  rw [List.getElem?_eq_getElem hlt]
  simpa using hfree

theorem Tight.insert (h : s.Tight) {i : ℕ} (hi : s.freePages[i]?=some false) (hkey : key∉s.swapCacheMap)
    (stats : SwapStats) :
    (⟨s.swapSize,s.freePages.set i true,s.swapCacheMap.insert key i,stats⟩ : SwapCache).Tight := by
  have hlt : i<s.freePages.length := (List.getElem?_eq_some_iff.mp hi).1
  have hfalse : s.freePages[i]=false := (List.getElem?_eq_some_iff.mp hi).2
  have hlook : ∀key',(s.swapCacheMap.insert key i).lookup key' =
      if key'=key then some i else s.swapCacheMap.lookup key' := fun key' => by
    by_cases hk : key'=key
    · rw [hk,if_pos rfl,AList.lookup_insert]
    · rw [if_neg hk,AList.lookup_insert_ne hk]
  have hother : ∀key' j,s.swapCacheMap.lookup key'=some j → j≠i := fun key' j hj heq => by
    rw [heq] at hj
    rw [h.used key' i hj] at hi
    cases hi
  refine ⟨by rw [length_set]; exact h.length,?_,fun key' j hj => ?_,fun j hj => ?_,
    fun key' key'' j hj hj' => ?_⟩
  · have hkeys : (s.swapCacheMap.insert key i).keys=key::s.swapCacheMap.keys := by
      rw [AList.keys,AList.entries_insert_of_notMem hkey,keys_cons]
      rfl
    dsimp only
    rw [hkeys,length_cons,h.size,count_set hlt,hfalse]
    simp
  · rw [hlook] at hj
    split_ifs at hj with hk
    · cases hj
      rw [List.getElem?_set_self hlt]
    · rw [List.getElem?_set_ne (hother key' j hj).symm]
      exact h.used key' j hj
  · by_cases hji : j=i
    · exact ⟨key,by rw [hlook,if_pos rfl,hji]⟩
    · rw [List.getElem?_set_ne (Ne.symm hji)] at hj
      obtain ⟨key',hkey'⟩:=h.page j hj
      refine ⟨key',?_⟩
      rw [hlook,if_neg fun heq => ?_,hkey']
      rw [heq,AList.lookup_eq_none.mpr hkey] at hkey'
      cases hkey'
  · rw [hlook] at hj hj'
    split_ifs at hj hj' with hk hk' hk'
    · rw [hk,hk']
    · cases hj
      exact absurd rfl (hother key'' i hj')
    · cases hj'
      exact absurd rfl (hother key' i hj)
    · exact h.inj key' key'' j hj hj'

theorem Tight.full_iff (h : s.Tight) : s.swapCacheMap.keys.length=s.freePages.length ↔ false∉s.freePages := by
  rw [h.size,count_eq_length]
  refine ⟨fun hall hmem => ?_,fun hnot b hb => ?_⟩
  · cases hall false hmem
  · cases b with
    | true => rfl
    | false => exact absurd hb hnot

/-- While a slot is free the second test for a full swap space does not fire. -/
theorem Tight.swapOut_free (h : s.Tight) {i : ℕ}
    (hfind : s.freePages.findIdx? (fun used => !used)=some i) :
    s.swapOut key full=(true,⟨s.swapSize,s.freePages.set i true,s.swapCacheMap.insert key i,
      {s.stats with swapOuts:=s.stats.swapOuts+1}⟩) := by
  obtain ⟨hfree,hi⟩:=findFreePage_some hfind
  have hnotfull : s.swapCacheMap.keys.length≠s.freePages.length :=
    fun heq => h.full_iff.mp heq (mem_of_getElem? hi)
  have hcount : s.swapCacheMap.keys.length ≤ s.freePages.length := by
    rw [h.size]
    exact count_le_length
  have hinsert : (s.swapCacheMap.insert key i).keys.length ≤ s.swapCacheMap.keys.length+1 := by
    rw [AList.keys_insert,length_cons]
    exact Nat.succ_le_succ length_erase_le
  have hle : ¬ (s.swapCacheMap.insert key i).keys.length > s.swapSize := by
    rw [← h.length]
    omega
  rw [swapOut,hfree]
  simp only [if_neg hle]

theorem swapOut_full (hfind : s.freePages.findIdx? (fun used => !used)=none) :
    s.swapOut key full=(false,s) := by
  rw [swapOut,(findFreePage_none hfind).1]

theorem Tight.refusesWhenFull (h : s.Tight) : s.RefusesWhenFull := by
  intro key full
  cases hfind : s.freePages.findIdx? fun used => !used with
  | none =>
    rw [swapOut_full hfind,h.full_iff]
    exact ⟨⟨fun _ => (findFreePage_none hfind).2,fun _ => rfl⟩,fun _ => ⟨rfl,rfl⟩⟩
  | some i =>
    have hmem := mem_of_getElem? (findFreePage_some hfind).2
    rw [h.swapOut_free hfind,h.full_iff]
    exact ⟨⟨fun hf => absurd hf (by simp),fun hnot => absurd hmem hnot⟩,fun hf => absurd hf (by simp)⟩

theorem Tight.step {call : SwapCall} {s' : SwapCache} (h : s.Tight) (hfresh : s.Fresh call)
    (hs : s.step call = .ok s') : s'.Tight := by
  cases call with
  | swapOut key full =>
    cases hs
    cases hfind : s.freePages.findIdx? fun used => !used with
    | none =>
      rw [swapOut_full hfind]
      exact h
    | some i =>
      have hi := (findFreePage_some hfind).2
      rw [h.swapOut_free hfind]
      exact h.insert hi (fun hkey => hfresh hkey (mem_of_getElem? hi)) _
  | swapIn key =>
    cases hs
    have herase : s.swapCacheMap.erase key=s.swapCacheMap := by
      refine AList.ext ?_
      rw [AList.erase]
      exact kerase_of_notMem_keys hfresh
    have hswap : s.swapIn key={s with stats:={s.stats with swapIns:=s.stats.swapIns+1}} := by
      rw [swapIn,herase]
    rw [hswap]
    exact ⟨h.length,h.size,h.used,h.page,h.inj⟩

theorem Tight.fresh_of_accounted {call : SwapCall} {s' : SwapCache} (h : s.Tight) (hs : s.step call = .ok s')
    (hacc : s'.Accounted) : s.Fresh call := by
  cases call with
  | swapOut key full =>
    intro hkey hfree
    cases hs
    cases hfind : s.freePages.findIdx? fun used => !used with
    | none => exact (findFreePage_none hfind).2 hfree
    | some i =>
      have hi := (findFreePage_some hfind).2
      obtain ⟨j,hj⟩:=Option.isSome_iff_exists.mp (AList.lookup_isSome.mpr hkey)
      have hused := h.used key j hj
      have hji : j≠i := fun heq => by
        rw [heq,hi] at hused
        cases hused
      rw [h.swapOut_free hfind] at hacc
      have hset : (s.freePages.set i true)[j]?=some true := by
        rw [List.getElem?_set_ne (Ne.symm hji)]
        exact hused
      obtain ⟨key',hkey',-⟩:=(hacc j (List.getElem?_eq_some_iff.mp hset).1).mp hset
      by_cases hk : key'=key
      · rw [hk,AList.lookup_insert,Option.some.injEq] at hkey'
        exact hji hkey'.symm
      · rw [AList.lookup_insert_ne hk] at hkey'
        exact hk (h.inj key' key j hkey' hj)
  | swapIn key =>
    intro hkey
    cases hs
    obtain ⟨j,hj⟩:=Option.isSome_iff_exists.mp (AList.lookup_isSome.mpr hkey)
    have hused := h.used key j hj
    obtain ⟨key',hkey',-⟩:=(hacc j (List.getElem?_eq_some_iff.mp hused).1).mp hused
    by_cases hk : key'=key
    · rw [swapIn,hk,AList.lookup_erase] at hkey'
      cases hkey'
    · rw [swapIn,AList.lookup_erase_ne hk] at hkey'
      exact hk (h.inj key' key j hkey' hj)

theorem Tight.accounted (h : s.Tight) : s.Accounted := by
  intro i _
  constructor
  · intro hi
    obtain ⟨key,hkey⟩:=h.page i hi
    exact ⟨key,hkey,fun key' hkey' => h.inj key' key i hkey' hkey⟩
  · rintro ⟨key,hkey,-⟩
    exact h.used key i hkey

/-- For every swap size, the accounts are right after every call of a run exactly when no call
of the run swaps a page in or swaps a page out a second time. -/
theorem swap_accounted_iff (swapSize : ℕ) (calls : List SwapCall) :
    (∀pre,pre <+: calls → ∃s,run step (new swapSize) pre = .ok s ∧ s.Accounted ∧
      s.RefusesWhenFull) ↔ Along step Fresh (new swapSize) calls := by
  have hstep : ∀s call s',Tight s → s.Fresh call → s.step call = .ok s' → Tight s' :=
    fun s call s' h hfresh hs => h.step hfresh hs
  constructor
  · intro h
    exact along_of_states (P:=fun s => s.Accounted ∧ s.RefusesWhenFull)
      (fun s call s' h hs hacc => h.fresh_of_accounted hs hacc.1) hstep (new_tight swapSize) h
  · rintro h pre ⟨post,rfl⟩
    have htotal : ∀s call,Tight s → s.Fresh call → ∃s',s.step call = .ok s' ∧ Tight s' :=
      fun s call h hfresh => by
        cases call with
        | swapOut key full => exact ⟨_,rfl,h.step hfresh rfl⟩
        | swapIn key => exact ⟨_,rfl,h.step hfresh rfl⟩
    obtain ⟨s,hs,htight⟩:=run_total htotal (new_tight swapSize) h.left
    exact ⟨s,hs,htight.accounted,htight.refusesWhenFull⟩

/-- With 256 slots, a page is swapped out and in again 256 times. All slots stay used although no
page is swapped out, and no page can be swapped out any more. -/
theorem swapIn_leaks_slot : ∃s,run step (new 256)
      (replicate 256 [SwapCall.swapOut ⟨0,0⟩ true,.swapIn ⟨0,0⟩]).flatten = .ok s ∧
    (s.freePages = replicate 256 true ∧ s.swapCacheMap.keys = [] ∧ (s.swapOut ⟨1,0⟩ true).1 = false) ∧
    ¬ s.Accounted := by
  refine exists_ok (P:=fun s => s.freePages = replicate 256 true ∧ s.swapCacheMap.keys = [] ∧
    (s.swapOut ⟨1,0⟩ true).1 = false) (by decide +kernel) fun s _ hs => ⟨hs,fun hacc => ?_⟩
  obtain ⟨hpages,hkeys,-⟩ := hs
  obtain ⟨key,hkey,-⟩ := (hacc 0 (by rw [hpages,length_replicate]; decide)).mp (by rw [hpages]; rfl)
  have hmem : key∈s.swapCacheMap := AList.lookup_isSome.mp (by rw [hkey]; rfl)
  have hnil : key∈s.swapCacheMap.keys := hmem
  rw [hkeys] at hnil
  cases hnil

/-- A slot is used for every page that was ever swapped out. -/
structure Spent (swapSize : ℕ) (s : SwapCache) : Prop where
  size : s.swapSize=swapSize
  length : s.freePages.length=swapSize
  used : s.freePages.count true=s.stats.swapOuts
  kept : s.swapCacheMap.keys.length≤ s.stats.swapOuts
  space : s.stats.failedSwapOutsSpace=0

theorem Spent.swapOut {swapSize : ℕ} (h : s.Spent swapSize) (key : SwapKey) (full : Bool) :
    ((s.swapOut key full).1=true ↔ s.stats.swapOuts<swapSize) ∧ (s.swapOut key full).2.Spent swapSize := by
  have hcount := count_le_length (a:=true) (l:=s.freePages)
  rw [h.length,h.used] at hcount
  cases hfind : s.freePages.findIdx? fun used => !used with
  | none =>
    have hall : s.freePages.count true=s.freePages.length := count_eq_length.mpr fun b hb => by
      cases b with
      | true => rfl
      | false => exact absurd hb (findFreePage_none hfind).2
    rw [h.used,h.length] at hall
    rw [swapOut_full hfind]
    exact ⟨by simp [hall],h⟩
  | some i =>
    obtain ⟨hfree,hi⟩:=findFreePage_some hfind
    obtain ⟨hlt,hfalse⟩:=List.getElem?_eq_some_iff.mp hi
    have hset : (s.freePages.set i true).count true=s.stats.swapOuts+1 := by
      rw [count_set hlt,hfalse,h.used]
      simp
    have hle := count_le_length (a:=true) (l:=s.freePages.set i true)
    have hkept : (s.swapCacheMap.insert key i).keys.length≤ s.stats.swapOuts+1 := by
      rw [AList.keys_insert,length_cons]
      exact Nat.succ_le_succ (length_erase_le.trans h.kept)
    rw [hset,length_set,h.length] at hle
    rw [SwapCache.swapOut,hfree]
    dsimp only
    rw [if_neg (by rw [h.size]; omega)]
    exact ⟨by simp; omega,h.size,(length_set ..).trans h.length,hset,hkept,h.space⟩

/-- Slots are never given back: a swap space serves as many calls of `swapOut` as it has slots, whatever is
swapped in, and no call fails at the second test. -/
theorem run_swap_spent (swapSize : ℕ) (calls : List SwapCall) : ∃s,run step (new swapSize) calls = .ok s ∧
    s.Spent swapSize ∧ ∀key full,(s.swapOut key full).1=true ↔ s.stats.swapOuts<swapSize := by
  have hstep : ∀s call,Spent swapSize s → True → ∃s',s.step call = .ok s' ∧ s'.Spent swapSize := by
    intro s call h _
    cases call with
    | swapOut key full => exact ⟨_,rfl,(h.swapOut key full).2⟩
    | swapIn key =>
      refine ⟨_,rfl,h.size,h.length,h.used,le_trans ?_ h.kept,h.space⟩
      rw [swapIn,AList.keys_erase]
      exact length_erase_le
  have hnew : (new swapSize).Spent swapSize := ⟨rfl,length_replicate,by simp [new,count_replicate],le_rfl,rfl⟩
  obtain ⟨s,hs,h⟩:=run_total hstep hnew (along_of_forall (fun _ _ => trivial) _ calls)
  exact ⟨s,hs,h,fun key full => (h.swapOut key full).1⟩

end SwapCache

end Sniper.Swap
