import Sniper.DirectoryAllocation

/-!
# The history of the requests

The moments of a run tell in which order the requests for a block arrived, in which order the
work on them began and ended, and which replies were delivered.
-/

namespace Sniper.Coherence
open FallibleRuns NotedRuns NotedRuns.Noted List

variable {n : ℕ} {δ : Type}

def DirectoryEvent.address : DirectoryEvent n δ → ℕ
  | .arrive a _ | .start a | .lookup a | .allocate a | .replace _ a | .process a .. | .invalidate a
  | .complete a | .deliver _ a _ => a

namespace Moment

variable (a : ℕ) (c : Fin n)

section

variable (m : Moment n δ)

def arrival : Option (RequestType × Fin n) :=
  match m.event with
  | .arrive b r => if b=a then some r.kind else none
  | _ => none

def beginning : Option (RequestType × Fin n) :=
  match m.event with
  | .start b => if b=a then (kinds (m.state.blocks a).queue).head? else none
  | _ => none

def ending : Option (RequestType × Fin n) :=
  match m.event with
  | .complete b => if b=a then (kinds (m.state.blocks a).queue).head? else none
  | _ => none

def reply : Option (CacheMsg δ) :=
  match m.event with
  | .deliver d b x => if d=c ∧ b=a ∧ x.isReply=true then some x else none
  | _ => none

/-- Nothing becomes of a request. -/
def Idle : Prop :=
  match m.event with
  | .lookup _ | .allocate _ | .replace .. | .process .. | .invalidate _ => True
  | .arrive .. | .start _ | .complete _ | .deliver .. => False

end

variable {a c} {m : Moment n δ}

theorem eq_none (h : m.Idle ∨ m.event.address≠a) :
    m.arrival a=none ∧ m.beginning a=none ∧ m.ending a=none ∧ ∀c,m.reply a c=none := by
  obtain ⟨state,event⟩:=m
  cases event with
  | lookup | allocate | replace | process | invalidate => exact ⟨rfl,rfl,rfl,fun _ => rfl⟩
  | arrive b r => exact ⟨if_neg (h.resolve_left id),rfl,rfl,fun _ => rfl⟩
  | start b => exact ⟨rfl,if_neg (h.resolve_left id),rfl,fun _ => rfl⟩
  | complete b => exact ⟨rfl,rfl,if_neg (h.resolve_left id),fun _ => rfl⟩
  | deliver d b x => exact ⟨rfl,rfl,rfl,fun _ => if_neg fun hd => h.resolve_left id hd.2.1⟩

end Moment

section Histories

variable (a : ℕ) (c : Fin n) (notes notes' : List (Moment n δ))

def arrived : List (RequestType × Fin n) := notes.filterMap (Moment.arrival a)

def started : List (RequestType × Fin n) := notes.filterMap (Moment.beginning a)

def completed : List (RequestType × Fin n) := notes.filterMap (Moment.ending a)

def delivered : List (CacheMsg δ) := notes.filterMap (Moment.reply a c)

/-- The requests of a cache that have ended; a request to nullify is nobody's. -/
def completedOf : List (RequestType × Fin n) := (completed a notes).filter fun k => k.1 ≠ .nullifyReq ∧ k.2=c

@[simp] theorem arrived_append : arrived a (notes++notes')=arrived a notes++arrived a notes' :=
  filterMap_append

@[simp] theorem started_append : started a (notes++notes')=started a notes++started a notes' :=
  filterMap_append

@[simp] theorem completed_append : completed a (notes++notes')=completed a notes++completed a notes' :=
  filterMap_append

@[simp] theorem delivered_append : delivered a c (notes++notes')=delivered a c notes++delivered a c notes' :=
  filterMap_append

@[simp] theorem completedOf_append :
    completedOf a c (notes++notes')=completedOf a c notes++completedOf a c notes' := by
  rw [completedOf,completed_append,filter_append]
  rfl

end Histories

namespace DirectorySystem

variable {s s' t : DirectorySystem n δ} {a b : ℕ} {c : Fin n} {notes notes' : List (Moment n δ)}
  {m : Moment n δ} {k : RequestType × Fin n} {ks : List (RequestType × Fin n)}

/-- What the moments between two states say about the requests. -/
structure Follows (s : DirectorySystem n δ) (notes : List (Moment n δ)) (s' : DirectorySystem n δ) :
    Prop where
  order : ∀a,kinds (s.blocks a).queue++arrived a notes =
    completed a notes++kinds (s'.blocks a).queue
  front : ∀a,(kinds (s.blocks a).queue).take 1++started a notes =
    completed a notes++(kinds (s'.blocks a).queue).take 1
  answers : ∀a c,∃sent,((s.blocks a).lines c).replies++sent =
      delivered a c notes++((s'.blocks a).lines c).replies ∧
    List.Forall₂ (fun k m => CacheMsg.Answers k.1 m) (completedOf a c notes) sent

theorem Follows.refl (s : DirectorySystem n δ) : Follows s [] s :=
  ⟨fun _ => append_nil _,fun _ => append_nil _,fun _ _ => ⟨[],append_nil _,.nil⟩⟩

theorem Follows.trans (h : Follows s notes t) (h' : Follows t notes' s') : Follows s (notes++notes') s' := by
  refine ⟨fun a => ?_,fun a => ?_,fun a c => ?_⟩
  · rw [arrived_append,completed_append,← append_assoc,h.order,append_assoc,h'.order,append_assoc]
  · rw [started_append,completed_append,← append_assoc,h.front,append_assoc,h'.front,append_assoc]
  · obtain ⟨sent,hsent,hanswers⟩:=h.answers a c
    obtain ⟨sent',hsent',hanswers'⟩:=h'.answers a c
    refine ⟨sent++sent',?_,?_⟩
    · rw [delivered_append,← append_assoc,hsent,append_assoc,hsent',append_assoc]
    · rw [completedOf_append]
      exact rel_append hanswers hanswers'

/-- The queues and the replies on their way are the same. -/
def Same (s s' : DirectorySystem n δ) : Prop :=
  ∀a,kinds (s'.blocks a).queue=kinds (s.blocks a).queue ∧ (s.blocks a).Silent (s'.blocks a)

/-- The same, but for one block. -/
def SameBut (a : ℕ) (s s' : DirectorySystem n δ) : Prop :=
  ∀b≠a,kinds (s'.blocks b).queue=kinds (s.blocks b).queue ∧ (s.blocks b).Silent (s'.blocks b)

theorem Same.follows (h : Same s s') : Follows s [] s' := by
  refine ⟨fun a => ?_,fun a => ?_,fun a c => ⟨[],?_,.nil⟩⟩
  · rw [(h a).1]
    exact append_nil _
  · rw [(h a).1]
    exact append_nil _
  · rw [(h a).2 c]
    exact append_nil _

theorem Follows.idle (h : Follows s notes s') (hm : m.Idle) : Follows s (m::notes) s' := by
  have hnone := fun a => Moment.eq_none (a:=a) (.inl hm)
  refine ⟨fun a => ?_,fun a => ?_,fun a c => ?_⟩
  · rw [arrived,completed,filterMap_cons_none (hnone a).1,filterMap_cons_none (hnone a).2.2.1]
    exact h.order a
  · rw [started,completed,filterMap_cons_none (hnone a).2.1,filterMap_cons_none (hnone a).2.2.1]
    exact h.front a
  · rw [delivered,completedOf,completed,filterMap_cons_none ((hnone a).2.2.2 c),
      filterMap_cons_none (hnone a).2.2.1]
    exact h.answers a c

theorem follows_of_block (hothers : SameBut a s t) (hnotes : ∀m∈notes,m.event.address=a)
    (horder : kinds (s.blocks a).queue++arrived a notes=completed a notes++kinds (t.blocks a).queue)
    (hfront : (kinds (s.blocks a).queue).take 1++started a notes =
      completed a notes++(kinds (t.blocks a).queue).take 1)
    (hanswers : ∀c,∃sent,((s.blocks a).lines c).replies++sent =
        delivered a c notes++((t.blocks a).lines c).replies ∧
      List.Forall₂ (fun k m => CacheMsg.Answers k.1 m) (completedOf a c notes) sent) : Follows s notes t := by
  have hnone : ∀b≠a,arrived b notes=[] ∧ started b notes=[] ∧ completed b notes=[] ∧
      ∀c,delivered b c notes=[] := by
    intro b hb
    have hmoments := fun m hm => Moment.eq_none (m:=m) (a:=b)
      (.inr (by rw [hnotes m hm]; exact hb.symm))
    exact ⟨filterMap_eq_nil_iff.mpr fun m hm => (hmoments m hm).1,
      filterMap_eq_nil_iff.mpr fun m hm => (hmoments m hm).2.1,
      filterMap_eq_nil_iff.mpr fun m hm => (hmoments m hm).2.2.1,
      fun c => filterMap_eq_nil_iff.mpr fun m hm => (hmoments m hm).2.2.2 c⟩
  refine ⟨fun b => ?_,fun b => ?_,fun b c => ?_⟩
  · by_cases hb : b=a
    · exact hb ▸ horder
    · rw [(hnone b hb).1,(hnone b hb).2.2.1,(hothers b hb).1,append_nil,nil_append]
  · by_cases hb : b=a
    · exact hb ▸ hfront
    · rw [(hnone b hb).2.1,(hnone b hb).2.2.1,(hothers b hb).1,append_nil,nil_append]
  · by_cases hb : b=a
    · exact hb ▸ hanswers c
    · refine ⟨[],?_,?_⟩
      · rw [(hnone b hb).2.2.2,(hothers b hb).2 c,append_nil,nil_append]
      · rw [completedOf,(hnone b hb).2.2.1]
        exact .nil

theorem follows_arrive {r : ShmemReq n} (hothers : SameBut a s t)
    (hsilent : (s.blocks a).Silent (t.blocks a))
    (hkinds : kinds (t.blocks a).queue=kinds (s.blocks a).queue++[r.kind]) :
    Follows s (⟨s',.arrive a r⟩::if (s.blocks a).queue=[] then [⟨t,.start a⟩] else []) t := by
  by_cases hempty : (s.blocks a).queue=[]
  · have hnil := kinds_eq_nil.mpr hempty
    rw [hnil,nil_append] at hkinds
    rw [if_pos hempty]
    refine follows_of_block hothers (by simp [DirectoryEvent.address]) ?_ ?_ fun c => ⟨[],?_,.nil⟩
    · simp [arrived,completed,filterMap_cons,Moment.arrival,Moment.ending,hkinds,hnil]
    · simp [started,completed,filterMap_cons,Moment.beginning,Moment.ending,hkinds,hnil]
    · simp [delivered,filterMap_cons,Moment.reply,hsilent c]
  · obtain ⟨k,ks,hk⟩:=exists_cons_of_ne_nil fun hnil => hempty (kinds_eq_nil.mp hnil)
    rw [if_neg hempty]
    refine follows_of_block hothers (by simp [DirectoryEvent.address]) ?_ ?_ fun c => ⟨[],?_,.nil⟩
    · simp [arrived,completed,filterMap_cons,Moment.arrival,Moment.ending,hkinds]
    · simp [started,completed,filterMap_cons,Moment.beginning,Moment.ending,hkinds,hk]
    · simp [delivered,filterMap_cons,Moment.reply,hsilent c]

/-- The front request has been answered, or it was one to nullify. -/
structure Replied (a : ℕ) (s t : DirectorySystem n δ) : Prop where
  others : SameBut a s t
  kinds : kinds (t.blocks a).queue=kinds (s.blocks a).queue
  answered : ∀k ks,Coherence.kinds (s.blocks a).queue=k::ks → ∀c,∃sent,
    ((t.blocks a).lines c).replies=((s.blocks a).lines c).replies++sent ∧
      List.Forall₂ (fun k m => CacheMsg.Answers k.1 m)
        ([k].filter fun k => k.1 ≠ .nullifyReq ∧ k.2=c) sent

theorem follows_complete (h : Replied a s t) (hqueue : (t.blocks a).queue≠[]) :
    Follows s (⟨t,.complete a⟩::if ((t.dequeue a).blocks a).queue=[] then []
      else [⟨t.dequeue a,.start a⟩]) (t.dequeue a) := by
  obtain ⟨k,ks,hk⟩:=exists_cons_of_ne_nil fun hempty => hqueue (kinds_eq_nil.mp hempty)
  have hks : kinds ((t.dequeue a).blocks a).queue=ks := by
    rw [dequeue,setBlock_blocks_self,kinds_tail,hk]
    rfl
  have hs := h.kinds.symm.trans hk
  have hothers : SameBut a s (t.dequeue a) := fun b hb => by
    rw [dequeue,setBlock_blocks_of_ne t _ hb]
    exact h.others b hb
  have hlines : ((t.dequeue a).blocks a).lines=(t.blocks a).lines := by
    rw [dequeue,setBlock_blocks_self]
  have hanswers : ∀c (rest : List (Moment n δ)),completed a rest=[] → delivered a c rest=[] →
      ∃sent,((s.blocks a).lines c).replies++sent =
        delivered a c (⟨t,.complete a⟩::rest)++(((t.dequeue a).blocks a).lines c).replies ∧
      List.Forall₂ (fun k m => CacheMsg.Answers k.1 m) (completedOf a c (⟨t,.complete a⟩::rest)) sent := by
    intro c rest hcompleted hdelivered
    obtain ⟨sent,hsent,hanswer⟩:=h.answered k ks hs c
    refine ⟨sent,?_,?_⟩
    · rw [hlines,hsent,delivered,filterMap_cons_none rfl]
      exact (congrArg (· ++ _) hdelivered).symm
    · have hending : completed a (⟨t,.complete a⟩::rest)=[k] := by
        rw [completed,filterMap_cons_some (b:=k)]
        · exact congrArg _ hcompleted
        · simp [Moment.ending,hk]
      rw [completedOf,hending]
      exact hanswer
  by_cases hempty : ((t.dequeue a).blocks a).queue=[]
  · have hnil : ks=[] := hks.symm.trans (kinds_eq_nil.mpr hempty)
    rw [if_pos hempty]
    refine follows_of_block hothers (by simp [DirectoryEvent.address]) ?_ ?_
      fun c => hanswers c [] rfl rfl
    · simp [arrived,completed,filterMap_cons,Moment.arrival,Moment.ending,hk,hks,hs]
    · simp [started,completed,filterMap_cons,Moment.beginning,Moment.ending,hk,hks,hs,hnil]
  · obtain ⟨k',ks',hks'⟩:=exists_cons_of_ne_nil fun hnil =>
      hempty (kinds_eq_nil.mp (hks.trans hnil))
    rw [if_neg hempty]
    refine follows_of_block hothers (by simp [DirectoryEvent.address]) ?_ ?_
      fun c => hanswers c _ rfl rfl
    · simp [arrived,completed,filterMap_cons,Moment.arrival,Moment.ending,hk,hks,hs]
    · simp [started,completed,filterMap_cons,Moment.beginning,Moment.ending,hk,hks,hs,hks']

end DirectorySystem

end Sniper.Coherence
