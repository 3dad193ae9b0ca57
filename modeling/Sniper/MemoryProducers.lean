import Sniper.RegisterProducers

/-!
# Memory dependencies

`MemoryDependencies` keeps the stores of the window in the order of their sequence numbers, in a queue for
1024 of them, and the last memory barrier.
-/

namespace Sniper.Microops
open FallibleRuns List

inductive MemoryAccess where
  | load (physicalAddress : ℕ)
  | store (physicalAddress : ℕ)
  | memBarrier
  | other
  deriving DecidableEq

/-- A micro-op with the lowest sequence number in the window when it is processed. -/
structure MemoryOp where
  sequenceNumber : ℕ
  access : MemoryAccess
  lowest : ℕ

structure Producer where
  seqnr : ℕ
  address : ℕ

/-- `none` stands for `INVALID_SEQNR`. -/
structure MemoryDependencies where
  producers : List Producer
  membar : Option ℕ

namespace MemoryDependencies

def new : MemoryDependencies := ⟨[],none⟩

section

variable (m : MemoryDependencies)

def add (seqnr address : ℕ) : Except Abort MemoryDependencies :=
  if m.producers.length=1024 then .error .assertion
  else .ok {m with producers:=m.producers++[⟨seqnr,address⟩]}

/-- The search goes from the tail of the queue to its front. -/
def find (address : ℕ) : Option ℕ :=
  (m.producers.reverse.find? fun p => p.address == address).map Producer.seqnr

def clean (lowest : ℕ) : MemoryDependencies := {m with producers:=m.producers.dropWhile fun p => p.seqnr<lowest}

def addProducer (dependencies : List ℕ) (producer : Option ℕ) : List ℕ :=
  producer.elim dependencies (addDependency dependencies)

/-- The dependencies that are added to those on registers, and the state after the micro-op. -/
def setDependencies (a : MemoryOp) : Except Abort (List ℕ × MemoryDependencies) :=
  let m := m.clean a.lowest
  let membar := m.membar.filter fun b => a.lowest<b
  match a.access with
  | .load address => .ok (addProducer (addProducer [] (m.find address)) membar,m)
  | .store address => do
    let m ← m.add a.sequenceNumber address
    .ok (addProducer [] membar,m)
  | .memBarrier => .ok (addProducer [] membar,{m with membar:=some a.sequenceNumber})
  | .other => .ok ([],m)

def step (a : MemoryOp) : Except Abort MemoryDependencies := Prod.snd <$> m.setDependencies a

end

end MemoryDependencies

def MemoryOp.stored (a : MemoryOp) : Option Producer :=
  match a.access with
  | .store address => some ⟨a.sequenceNumber,address⟩
  | _ => none

/-- The stores in the window that begins at `lowest`. -/
def storesFrom (lowest : ℕ) (earlier : List MemoryOp) : List Producer :=
  (earlier.filterMap MemoryOp.stored).filter fun p => lowest≤p.seqnr

def lastBarrier (earlier : List MemoryOp) : Option ℕ :=
  (earlier.filter fun a => a.access = .memBarrier).getLast?.map MemoryOp.sequenceNumber

/-- The micro-op `p` is the last store in the window to the address that `a` loads, or `a` accesses memory or
is a barrier, and `p` is the last barrier and not the first micro-op of the window. -/
def DependsOn (earlier : List MemoryOp) (a : MemoryOp) (p : ℕ) : Prop :=
  (∃address,a.access = .load address ∧
    ((storesFrom a.lowest earlier).filter fun q => q.address == address).getLast?.map Producer.seqnr=some p) ∨
  a.access≠.other ∧ lastBarrier earlier=some p ∧ a.lowest<p

/-- Micro-ops come in the order of their sequence numbers, each with a window that begins no later than the
micro-op and no earlier than the window before, and a store with room in the queue. -/
structure MemoryStream (ops : List MemoryOp) : Prop where
  ordered : ops.Pairwise fun a b => a.sequenceNumber<b.sequenceNumber ∧ a.lowest≤b.lowest
  inWindow : ∀a∈ops,a.lowest≤a.sequenceNumber
  room : ∀i (hi : i<ops.length),ops[i].stored.isSome → (storesFrom ops[i].lowest (ops.take i)).length<1024

variable {earlier : List MemoryOp} {a : MemoryOp} {m : MemoryDependencies} {lowest : ℕ}

theorem dropWhile_eq_filter {l : List Producer} (h : l.Pairwise fun p q => p.seqnr<q.seqnr) (k : ℕ) :
    l.dropWhile (fun p => p.seqnr<k)=l.filter fun p => k≤p.seqnr := by
  induction l with
  | nil => rfl
  | cons p l ih =>
    obtain ⟨hp,hl⟩:=pairwise_cons.mp h
    by_cases hk : p.seqnr<k
    · rw [dropWhile_cons_of_pos (by simpa using hk),filter_cons_of_neg (by simpa using hk),ih hl]
    · rw [dropWhile_cons_of_neg (by simpa using hk),eq_comm,filter_eq_self,forall_mem_cons]
      exact ⟨by simpa using hk,fun q hq => by have := hp q hq; simp; omega⟩

theorem MemoryOp.stored_seqnr {p : Producer} (hp : a.stored=some p) : p.seqnr=a.sequenceNumber := by
  unfold stored at hp
  split at hp <;> cases hp
  rfl

namespace MemoryStream

theorem init (h : MemoryStream (earlier++[a])) : MemoryStream earlier := by
  refine ⟨(pairwise_append.mp h.ordered).1,fun b hb => h.inWindow b (mem_append_left _ hb),fun i hi => ?_⟩
  have hroom := h.room i (by simp; omega)
  rwa [List.getElem_append_left hi,take_append_of_le_length hi.le] at hroom

theorem dropWhile_storesFrom (h : MemoryStream earlier) {l : ℕ} (hl : lowest≤l) :
    (storesFrom lowest earlier).dropWhile (fun p => p.seqnr<l)=storesFrom l earlier := by
  have hsorted : (storesFrom lowest earlier).Pairwise fun p q => p.seqnr<q.seqnr := by
    refine (Pairwise.filterMap _ (fun a b hab p hp q hq => ?_) h.ordered).filter _
    rw [MemoryOp.stored_seqnr hp,MemoryOp.stored_seqnr hq]
    exact hab.1
  rw [dropWhile_eq_filter hsorted,storesFrom,filter_filter]
  refine filter_congr fun p _ => ?_
  simp
  omega

theorem storesFrom_concat (h : MemoryStream (earlier++[a])) :
    storesFrom a.lowest (earlier++[a])=storesFrom a.lowest earlier++a.stored.toList := by
  have hw := h.inWindow a (by simp)
  rw [storesFrom,storesFrom,filterMap_append,filter_append]
  cases ha : a.stored with
  | none => simp [ha]
  | some p => simp [ha,MemoryOp.stored_seqnr ha,hw]

end MemoryStream

namespace MemoryDependencies

theorem mem_addProducer {dependencies : List ℕ} {producer : Option ℕ} {p : ℕ} :
    p∈addProducer dependencies producer ↔ p∈dependencies ∨ producer=some p := by
  cases producer with
  | none => simp [addProducer]
  | some b =>
    rw [addProducer,Option.elim_some,addDependency,Option.some_inj]
    split_ifs with hb
    · exact ⟨.inl,fun h => h.elim id fun heq => heq ▸ hb⟩
    · rw [mem_append,mem_singleton,eq_comm]

/-- The queue and the barrier after the micro-ops, for a window that begins at `lowest`. -/
def Current (lowest : ℕ) (earlier : List MemoryOp) (m : MemoryDependencies) : Prop :=
  m.producers=storesFrom lowest earlier ∧ m.membar=lastBarrier earlier

theorem Current.next (hm : m.Current lowest earlier) (h : MemoryStream (earlier++[a])) (hl : lowest≤a.lowest) :
    ∃dependencies m',m.setDependencies a = .ok (dependencies,m') ∧ m'.Current a.lowest (earlier++[a]) ∧
      ∀p,p∈dependencies ↔ DependsOn earlier a p := by
  have hclean : m.clean a.lowest=⟨storesFrom a.lowest earlier,lastBarrier earlier⟩ := by
    rw [clean,hm.1,hm.2,h.init.dropWhile_storesFrom hl]
  have hroom : a.stored.isSome → (storesFrom a.lowest earlier).length≠1024 := fun hstore => by
    simpa using (h.room earlier.length (by simp) (by simpa using hstore)).ne
  have hmembar : ∀p,(lastBarrier earlier).filter (fun b => a.lowest<b)=some p ↔
      lastBarrier earlier=some p ∧ a.lowest<p := fun p => by simp [Option.filter_eq_some_iff]
  rw [setDependencies,hclean]
  simp only [Current,h.storesFrom_concat,DependsOn,List.getLast?_filter]
  rw [MemoryOp.stored] at hroom ⊢
  cases ha : a.access
  case' store => rw [ha] at hroom; dsimp only; rw [add,if_neg (hroom rfl)]
  all_goals
    refine ⟨_,_,rfl,⟨by simp,by simp [lastBarrier,ha]⟩,fun p => ?_⟩
    simp [mem_addProducer,hmembar,find]

/-- In every stream the dependencies of a micro-op are on the last store and the last barrier. -/
theorem memory_dependencies_exact (earlier : List MemoryOp) (a : MemoryOp) (h : MemoryStream (earlier++[a])) :
    ∃m,run step new earlier = .ok m ∧ ∃dependencies m',m.setDependencies a = .ok (dependencies,m') ∧
      ∀p,p∈dependencies ↔ DependsOn earlier a p := by
  have hrun : ∃m lowest,run step new earlier = .ok m ∧ m.Current lowest earlier ∧ lowest≤a.lowest := by
    induction earlier using List.reverseRecOn generalizing a with
    | nil => exact ⟨new,0,rfl,⟨rfl,rfl⟩,Nat.zero_le _⟩
    | append_singleton earlier b ih =>
      obtain ⟨m,lowest,hm,hcur,hl⟩:=ih b h.init
      obtain ⟨dependencies,m',hset,hcur',-⟩:=hcur.next h.init hl
      refine ⟨m',_,?_,hcur',((pairwise_append.mp h.ordered).2.2 b (by simp) a (by simp)).2⟩
      rw [run_append,hm,ok_bind,run_cons,step,hset]
      rfl
  obtain ⟨m,lowest,hm,hcur,hl⟩:=hrun
  obtain ⟨dependencies,m',hset,-,hdep⟩:=hcur.next h hl
  exact ⟨m,hm,dependencies,m',hset,hdep⟩

/-- A store, a barrier and a load from the address of the store. -/
theorem memory_dependencies_three : ∃m,run step new [⟨0,.store 8,0⟩,⟨1,.memBarrier,0⟩] = .ok m ∧
    ∃dependencies m',m.setDependencies ⟨2,.load 8,0⟩ = .ok (dependencies,m') ∧ 0∈dependencies ∧
      1∈dependencies := by
  have hstream : MemoryStream ([⟨0,.store 8,0⟩,⟨1,.memBarrier,0⟩]++[⟨2,.load 8,0⟩]) :=
    ⟨by decide,by decide,by decide⟩
  obtain ⟨m,hm,dependencies,m',hset,hdep⟩:=memory_dependencies_exact _ _ hstream
  refine ⟨m,hm,dependencies,m',hset,(hdep 0).mpr (.inl ⟨8,rfl,by decide⟩),(hdep 1).mpr (.inr (by decide))⟩

end MemoryDependencies

end Sniper.Microops
