import Sniper.SubsecondTimes

/-!
# Application barriers

`SimBarrier::wait` of `sync_server.cc`, for the calls of one barrier in the order in which the
server gets them. The last thread of a generation resumes the others with its own time.
-/

namespace Sniper.Synchronization
open List

/-- Threads are numbered by `SInt32`, from zero on. -/
abbrev ThreadId := Fin (2^31)

structure BarrierCall where
  threadId : ThreadId
  time : SubsecondTime
  deriving DecidableEq

/-- A thread that leaves the barrier, and when. -/
structure Departure where
  threadId : ThreadId
  time : SubsecondTime
  deriving DecidableEq

structure SimBarrier where
  count : BitVec 32
  waiting : List ThreadId

namespace SimBarrier

/-- `barrierInit` makes a barrier of any count. -/
def new (count : BitVec 32) : SimBarrier := ⟨count,[]⟩

/-- The threads that leave with the call: those that were stalled, in the order in which they are
resumed, and the caller. -/
def wait (b : SimBarrier) (c : BarrierCall) : List Departure × SimBarrier :=
  if b.waiting.length=(b.count - 1).toNat then
    (b.waiting.map (⟨·,c.time⟩)++[⟨c.threadId,c.time⟩],{b with waiting:=[]})
  else ([],{b with waiting:=b.waiting++[c.threadId]})

def departures (b : SimBarrier) : List BarrierCall → List (List Departure)
  | [] => []
  | c::calls => (b.wait c).1::(b.wait c).2.departures calls

/-- A thread that is stalled makes no call. -/
def Legal (b : SimBarrier) : List BarrierCall → Prop
  | [] => True
  | c::calls => c.threadId∉b.waiting ∧ (b.wait c).2.Legal calls

instance decidableLegal (b : SimBarrier) : (calls : List BarrierCall) → Decidable (b.Legal calls)
  | [] => .isTrue trivial
  | _::calls => @instDecidableAnd _ _ _ (decidableLegal _ calls)

/-- The threads leave in the order of their calls, `count` at a time, and nobody leaves before a
thread of its generation has arrived. -/
structure Orderly (count : ℕ) (calls : List BarrierCall) (outs : List (List Departure)) : Prop where
  groups : ∀out∈outs,out=[] ∨ out.length=count
  order : outs.flatten.map Departure.threadId =
    (calls.take (count*(calls.length / count))).map BarrierCall.threadId
  notEarly : ∀i j c d,calls[i]?=some c → outs.flatten[j]?=some d → i / count=j / count →
    c.time≤d.time

variable {b : SimBarrier} {k : ℕ}

theorem getElem?_skip {α : Type} {l r : List α} {n i : ℕ} (h : l.length=n) : (l++r)[n+i]?=r[i]? := by
  rw [← h,getElem?_append_right (Nat.le_add_right _ _),Nat.add_sub_cancel_left]

/-- Behind the calls `pending` of the stalled threads, each call leaves with the last one of its
generation. -/
theorem departures_getElem? (hk : (b.count - 1).toNat=k) (pending calls : List BarrierCall)
    (hb : b.waiting=pending.map BarrierCall.threadId) (hle : pending.length≤k) (j : ℕ) :
    (b.departures calls).flatten[j]?=(pending++calls)[j]?.bind fun c =>
      (pending++calls)[j / (k+1)*(k+1)+k]?.map fun d => ⟨c.threadId,d.time⟩ := by
  induction calls generalizing b pending j with
  | nil => simp [departures,getElem?_eq_none (show pending.length≤j / (k+1)*(k+1)+k by omega)]
  | cons c calls ih =>
    rw [departures,flatten_cons,wait,hk,hb,length_map]
    split_ifs with hlast
    · have hout : (pending.map BarrierCall.threadId).map (⟨·,c.time⟩ : ThreadId → Departure) ++
          [⟨c.threadId,c.time⟩]=(pending++[c]).map fun x => ⟨x.threadId,c.time⟩ := by simp
      have hlen : (pending++[c]).length=k+1 := by simp [hlast]
      have hend : (pending++[c])[k]?=some c := by simp [← hlast]
      rw [append_cons pending c calls,hout]
      generalize pending++[c]=g at hlen hend ⊢
      rcases lt_or_ge j (k+1) with hj | hj
      · obtain ⟨_,hget⟩:=List.getElem?_eq_some_iff.mp hend
        simp [getElem?_append,hlen,hj,Nat.div_eq_of_lt hj,hget]
      · obtain ⟨j,rfl⟩:=Nat.exists_eq_add_of_le hj
        have hrest := ih (b:={b with waiting:=[]}) hk [] rfl k.zero_le j
        have hindex : (k+1+j) / (k+1)*(k+1)+k=k+1+(j / (k+1)*(k+1)+k) := by
          rw [Nat.add_div_left j (show 0<k+1 by omega),Nat.succ_mul]
          omega
        rw [hindex,getElem?_skip (by simpa using hlen),getElem?_skip hlen,getElem?_skip hlen]
        exact hrest
    · have hrest := ih (b:={b with waiting:=pending.map BarrierCall.threadId++[c.threadId]})
        hk (pending++[c]) (by simp) (by simp only [length_append,length_singleton]; omega) j
      simpa using hrest

theorem departures_groups (hk : (b.count - 1).toNat=k) (calls : List BarrierCall) :
    ∀out∈b.departures calls,out=[] ∨ out.length=k+1 := by
  induction calls generalizing b with
  | nil => simp [departures]
  | cons c calls ih =>
    rw [departures,forall_mem_cons]
    unfold wait
    split_ifs with h
    · exact ⟨.inr (by rw [length_append,length_map,h,hk]; rfl),ih hk⟩
    · exact ⟨.inl rfl,ih hk⟩

/-- No barrier of count zero ever releases a thread: there are not enough of them. -/
theorem departures_zero (hb : b.count=0) (hnodup : b.waiting.Nodup) {calls : List BarrierCall}
    (h : b.Legal calls) : (b.departures calls).flatten=[] := by
  induction calls generalizing b with
  | nil => rfl
  | cons c calls ih =>
    have hlt : b.waiting.length≤2^31 := by simpa using hnodup.length_le_card
    have hwait : b.wait c=([],{b with waiting:=b.waiting++[c.threadId]}) := by
      rw [wait,if_neg]
      rw [hb]
      simp
      omega
    rw [departures,flatten_cons,hwait,nil_append]
    rw [Legal,hwait] at h
    exact ih hb (hnodup.append (nodup_singleton _) (by simpa using h.1)) h.2

/-- A barrier works exactly if no call of a generation is later than its last one. -/
theorem barrier_orderly_iff (count : BitVec 32) (calls : List BarrierCall) (h : (new count).Legal calls) :
    Orderly count.toNat calls ((new count).departures calls) ↔ ∀i c d,0<count.toNat → calls[i]?=some c →
        calls[i / count.toNat*count.toNat+(count.toNat - 1)]?=some d → c.time≤d.time := by
  by_cases hzero : count=0
  · have hnone := departures_zero (b:=new count) hzero nodup_nil h
    have hnat : count.toNat=0 := by rw [hzero]; rfl
    rw [hnat]
    exact iff_of_true ⟨fun out hout => .inl (flatten_eq_nil_iff.mp hnone out hout),by simp [hnone],
      by simp [hnone]⟩ (by simp)
  · obtain ⟨k,hk⟩ : ∃k,count.toNat=k+1:=
      Nat.exists_eq_add_one.mpr (Nat.pos_of_ne_zero fun h0 => hzero (BitVec.eq_of_toNat_eq h0))
    have hlast : ((new count).count - 1).toNat=k := by
      simp only [new,BitVec.ofNat_eq_ofNat,BitVec.toNat_sub,BitVec.toNat_ofNat]
      omega
    have hpos : 0<k+1 := k.succ_pos
    have hget := departures_getElem? hlast [] calls rfl k.zero_le
    rw [hk]
    constructor
    · intro ho i c d _ hc hd
      have hi := hget i
      simp only [nil_append,hc,Nat.add_sub_cancel] at hi hd
      rw [hd] at hi
      exact ho.notEarly i i c ⟨c.threadId,d.time⟩ hc hi rfl
    · intro hmax
      refine ⟨departures_groups hlast calls,?_,?_⟩
      · refine ext_getElem? fun j => ?_
        have hiff : j<(k+1)*(calls.length / (k+1)) ↔
            j / (k+1)*(k+1)+k<calls.length := by
          rw [Nat.mul_comm,← Nat.div_lt_iff_lt_mul hpos,Nat.lt_div_iff_mul_lt hpos]
          omega
        rw [getElem?_map,getElem?_map,hget,getElem?_take,nil_append]
        split_ifs with hj
        · have hlt := hiff.mp hj
          have hle : j<calls.length := hj.trans_le (Nat.mul_div_le _ _)
          simp [hlt,hle]
        · rw [getElem?_eq_none (not_lt.mp fun hlt => hj (hiff.mpr hlt))]
          simp
      · intro i j c d hc hd hij
        rw [hget,nil_append] at hd
        obtain ⟨x,-,hd⟩:=Option.bind_eq_some_iff.mp hd
        obtain ⟨y,hy,rfl⟩:=Option.map_eq_some_iff.mp hd
        exact hmax i c y hpos hc (by rwa [hij,Nat.add_sub_cancel])

theorem barrier_orderly_pair : Orderly 2 [⟨0,5⟩,⟨1,7⟩] ((new 2).departures [⟨0,5⟩,⟨1,7⟩]) := by
  refine (barrier_orderly_iff 2 [⟨0,5⟩,⟨1,7⟩] (by decide)).mpr fun i c d _ hc hd => ?_
  rcases i with _ | _ | i
  · cases hc
    cases hd
    decide
  · cases hc
    cases hd
    decide
  · cases hc

/-- The second of two threads arrives at 50, and both leave then although the first one has
arrived at 100. -/
theorem earlier_thread_releases : (new 2).Legal [⟨0,100⟩,⟨1,50⟩] ∧
    (new 2).departures [⟨0,100⟩,⟨1,50⟩]=[[],[⟨0,50⟩,⟨1,50⟩]] ∧
    ¬ Orderly 2 [⟨0,100⟩,⟨1,50⟩] ((new 2).departures [⟨0,100⟩,⟨1,50⟩]) := by
  refine ⟨by decide,by decide,fun h => ?_⟩
  exact absurd (h.notEarly 0 1 ⟨0,100⟩ ⟨1,50⟩ rfl rfl rfl) (by decide)

end SimBarrier

end Sniper.Synchronization
