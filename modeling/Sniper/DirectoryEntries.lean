import Sniper.DirectoryController

/-!
# The entries of the directory

A set never gets a free entry back: once an entry of it has been replaced it is full for ever.
-/

namespace Sniper.Coherence
open FallibleRuns List

section Lists

variable {α : Type} [BEq α] [LawfulBEq α] [DecidableEq α]

theorem count_replace_of_mem {l : List α} {x : α} (hx : x∈l) (y z : α) :
    (l.replace x y).count z+(if x=z then 1 else 0)=l.count z+if y=z then 1 else 0 := by
  have hpos : x=z → 0<l.count z := fun hxz => count_pos_iff.mpr (hxz ▸ hx)
  rw [count_replace,if_pos (by simpa using hx)]
  simp only [beq_iff_eq]
  by_cases hxz : x=z
  · have := hpos hxz
    simp only [if_pos hxz]
    omega
  · simp only [if_neg hxz]
    omega

theorem mem_replace_of_ne {l : List α} {x y z : α} (hx : x∈l) (hz : x≠z) : z∈l.replace x y ↔ z∈l ∨ y=z := by
  have hcount := count_replace_of_mem hx y z
  rw [if_neg hz] at hcount
  rw [← count_pos_iff,← count_pos_iff]
  by_cases hy : y=z
  · rw [if_pos hy] at hcount
    constructor
    · exact fun _ => Or.inr hy
    · omega
  · rw [if_neg hy] at hcount
    simp only [hy,or_false]
    omega

theorem notMem_replace_self {l : List α} {x y : α} (hx : x∈l) (hy : y≠x) (h : l.count x≤1) :
    x∉l.replace x y := by
  have hcount := count_replace_of_mem hx y x
  rw [if_pos rfl,if_neg hy] at hcount
  rw [← count_pos_iff]
  omega

end Lists

section Choose

variable {α : Type} {p : α → Prop} [DecidablePred p] {q : Option α → α → Prop}
  [∀best x,Decidable (q best x)]

/-- A loop that keeps the better of two suitable elements. -/
def choose (p : α → Prop) [DecidablePred p] (q : Option α → α → Prop) [∀best x,Decidable (q best x)]
    (l : List α) (best : Option α) : Option α :=
  l.foldl (fun best x => if q best x ∧ p x then some x else best) best

theorem mem_of_choose {l : List α} {best : Option α} {x : α} (h : choose p q l best=some x) :
    best=some x ∨ x∈l ∧ p x := by
  induction l generalizing best with
  | nil => exact Or.inl h
  | cons z l ih =>
    rw [choose,foldl_cons] at h
    rcases ih h with hbest | ⟨hx,hp⟩
    · split_ifs at hbest with hz
      · cases hbest
        exact Or.inr ⟨mem_cons_self,hz.2⟩
      · exact Or.inl hbest
    · exact Or.inr ⟨mem_cons_of_mem _ hx,hp⟩

theorem choose_isSome {l : List α} {best : Option α} (h : best.isSome) : (choose p q l best).isSome := by
  induction l generalizing best with
  | nil => exact h
  | cons z l ih =>
    rw [choose,foldl_cons]
    refine ih ?_
    split_ifs
    · rfl
    · exact h

theorem choose_isSome_of_mem (hnone : ∀x,q none x) {l : List α} (h : ∃x∈l,p x) :
    (choose p q l none).isSome := by
  induction l with
  | nil => simp at h
  | cons z l ih =>
    rw [choose,foldl_cons]
    by_cases hz : p z
    · rw [if_pos ⟨hnone z,hz⟩]
      exact choose_isSome rfl
    · rw [if_neg fun hc => hz hc.2]
      obtain ⟨y,hy,hpy⟩:=h
      rcases mem_cons.mp hy with rfl | hy
      · exact absurd hpy hz
      · exact ih ⟨y,hy,hpy⟩

end Choose

namespace DirectorySystem

variable {n : ℕ} {δ : Type} {s : DirectorySystem n δ} {a v : ℕ}

section

variable (s)

def Slotted (a : ℕ) : Prop := some a∈s.slots (s.setIndex a)

def Present (a : ℕ) : Prop := s.Slotted a ∨ a∈s.replaced

/-- The set of the block is full of other blocks' entries. -/
def Crowded (a : ℕ) : Prop := ¬ s.Slotted a ∧ none∉s.slots (s.setIndex a)

/-- An entry that the block may take over belongs to a block without a request. -/
def HasVictim (a : ℕ) : Prop := ∃v∈(s.getReplacementCandidates a).1,(s.blocks v).queue=[]

structure Entries : Prop where
  index : ∀i a,some a∈s.slots i → s.setIndex a=i
  once : ∀i a,(s.slots i).count (some a)≤1
  nodup : s.replaced.Nodup
  crowded : ∀a∈s.replaced,s.Crowded a

end

theorem Entries.congr {s' : DirectorySystem n δ} (h : s.Entries) (hslots : s'.slots=s.slots)
    (hindex : s'.setIndex=s.setIndex) (hreplaced : s'.replaced=s.replaced) : s'.Entries := by
  cases s
  cases s'
  cases hslots
  cases hindex
  cases hreplaced
  exact ⟨h.index,h.once,h.nodup,h.crowded⟩

theorem entries_new (config : DirectoryConfig) (associativity : ℕ) (setIndex pointers : ℕ → ℕ)
    (nuca : Option (NucaCache δ)) (memory : ℕ → δ) :
    (new config associativity setIndex pointers nuca memory : DirectorySystem n δ).Entries := by
  refine ⟨fun i a ha => ?_,fun i a => ?_,nodup_nil,fun a ha => ?_⟩
  · cases eq_of_mem_replicate ha
  · rw [show DirectorySystem.slots _ i=List.replicate associativity none from rfl,count_replicate]
    simp
  · cases ha

theorem mem_candidates (h : v∈(s.getReplacementCandidates a).1) : some v∈s.slots (s.setIndex a) := by
  obtain ⟨k,-,hk⟩:=mem_filterMap.mp h
  rw [Option.join_eq_some_iff] at hk
  exact mem_of_getElem? hk

theorem replacementCandidate_eq (s : DirectorySystem n δ) (candidates : List ℕ) :
    s.replacementCandidate candidates=choose (fun a => (s.blocks a).queue=[])
      (fun best a => ∀b∈best,(s.blocks a).entry.numSharers<(s.blocks b).entry.numSharers) candidates none := rfl

theorem replacementCandidate_mem
    (h : (s.getReplacementCandidates a).2.replacementCandidate (s.getReplacementCandidates a).1=some v) :
    some v∈s.slots (s.setIndex a) ∧ (s.blocks v).queue=[] := by
  rw [replacementCandidate_eq] at h
  rcases mem_of_choose h with hnone | ⟨hmem,hqueue⟩
  · cases hnone
  · exact ⟨mem_candidates hmem,hqueue⟩

theorem HasVictim.candidate (h : s.HasVictim a) :
    ((s.getReplacementCandidates a).2.replacementCandidate (s.getReplacementCandidates a).1).isSome := by
  rw [replacementCandidate_eq]
  exact choose_isSome_of_mem (fun _ _ hb => by cases hb) h

/-- The block takes the place of another entry in its set. -/
def seat (s : DirectorySystem n δ) (old : Option ℕ) (a : ℕ) : DirectorySystem n δ :=
  s.setSlots (s.setIndex a) ((s.slots (s.setIndex a)).replace old (some a))

theorem seat_slots (s : DirectorySystem n δ) (old : Option ℕ) (a i : ℕ) :
    (s.seat old a).slots i =
      if i=s.setIndex a then (s.slots i).replace old (some a) else s.slots i := by
  by_cases hi : i=s.setIndex a
  · subst hi
    simp [seat,setSlots]
  · simp [seat,setSlots,hi]

section Seat

variable {old : Option ℕ} (hold : old∈s.slots (s.setIndex a))
include hold

theorem seat_slotted_self (ha : ¬ s.Slotted a) : (s.seat old a).Slotted a := by
  have hne : old≠some a := by
    rintro rfl
    exact ha hold
  show some a∈(s.seat old a).slots (s.setIndex a)
  rw [seat_slots,if_pos rfl,mem_replace_of_ne hold hne]
  exact Or.inr rfl

theorem mem_seat_slots {x : Option ℕ} (hx : old≠x) (hxa : x≠some a) (i : ℕ) :
    x∈(s.seat old a).slots i ↔ x∈s.slots i := by
  rw [seat_slots]
  split_ifs with hi
  · subst hi
    rw [mem_replace_of_ne hold hx]
    exact or_iff_left hxa.symm
  · rfl

theorem none_seat_slots {i : ℕ} (h : none∈(s.seat old a).slots i) : none∈s.slots i := by
  by_cases hnone : old=none
  · rw [seat_slots] at h
    split_ifs at h with hi
    · rw [hi,← hnone]
      exact hold
    · exact h
  · exact (mem_seat_slots hold hnone (by simp) i).mp h

theorem Entries.seat_index (h : s.Entries) (i b : ℕ) (hb : some b∈(s.seat old a).slots i) : s.setIndex b=i := by
  rw [seat_slots] at hb
  split_ifs at hb with hi
  · subst hi
    by_cases hold' : old=some b
    · exact h.index _ _ (hold' ▸ hold)
    · rcases (mem_replace_of_ne hold hold').mp hb with hb | hb
      · exact h.index _ _ hb
      · cases hb
        rfl
  · exact h.index _ _ hb

theorem Entries.seat_once (h : s.Entries) (ha : ¬ s.Slotted a) (i b : ℕ) :
    ((s.seat old a).slots i).count (some b)≤1 := by
  rw [seat_slots]
  split_ifs with hi
  · subst hi
    have hcount := count_replace_of_mem hold (some a) (some b)
    have honce := h.once (s.setIndex a) b
    by_cases hab : a=b
    · subst hab
      have hzero := count_eq_zero.mpr ha
      rw [if_pos (rfl : some a=some a)] at hcount
      omega
    · rw [if_neg (show some a≠some b by simpa using hab)] at hcount
      omega
  · exact h.once i b

end Seat

theorem Entries.fill (h : s.Entries) (hfree : none∈s.slots (s.setIndex a)) (ha : ¬ s.Slotted a) :
    (s.seat none a).Entries := by
  refine ⟨h.seat_index hfree,h.seat_once hfree ha,h.nodup,fun b hb => ?_⟩
  obtain ⟨hout,hfull⟩:=h.crowded b hb
  have hab : b≠a := fun hba => hfull (hba ▸ hfree)
  refine ⟨fun hin => hout ?_,fun hin => hfull (none_seat_slots hfree hin)⟩
  exact (mem_seat_slots hfree (by simp) (by simpa using hab) _).mp hin

theorem Entries.swap (h : s.Entries) (hv : some v∈s.slots (s.setIndex a)) (ha : s.Crowded a)
    (hreplaced : a∉s.replaced) :
    ({s.seat (some v) a with replaced:=s.replaced++[v]} : DirectorySystem n δ).Entries := by
  have hindex := h.index _ _ hv
  have hvs : s.Slotted v := by rwa [Slotted,hindex]
  have hva : v≠a := fun hva => ha.1 (hva ▸ hvs)
  refine ⟨h.seat_index hv,h.seat_once hv ha.1,?_,fun b hb => ?_⟩
  · refine nodup_append.mpr ⟨h.nodup,nodup_singleton v,fun b hb c hc hbc => ?_⟩
    rw [mem_singleton.mp hc] at hbc
    exact (h.crowded b hb).1 (hbc ▸ hvs)
  · rcases mem_append.mp hb with hb | hb
    · obtain ⟨hout,hfull⟩:=h.crowded b hb
      have hba : b≠a := fun hba => hreplaced (hba ▸ hb)
      have hbv : some v≠some b := fun hvb => hout (Option.some.inj hvb ▸ hvs)
      refine ⟨fun hin => hout ?_,fun hin => hfull (none_seat_slots hv hin)⟩
      exact (mem_seat_slots hv hbv (by simpa using hba) _).mp hin
    · rw [mem_singleton.mp hb]
      refine ⟨?_,fun hin => ha.2 ?_⟩
      · show some v∉(s.seat (some v) a).slots (s.setIndex v)
        rw [hindex,seat_slots,if_pos rfl]
        exact notMem_replace_self hv (show some a≠some v by simpa using hva.symm) (h.once _ v)
      · exact hindex ▸ none_seat_slots hv hin

theorem Entries.replaceDirectoryEntry (h : s.Entries) (hv : some v∈s.slots (s.setIndex a))
    (forwarder : Option (Fin n)) :
    s.replaceDirectoryEntry v a forwarder =
      .ok ({s.seat (some v) a with replaced:=s.replaced++[v]}.freshEntry a forwarder) := by
  have hindex := h.index _ _ hv
  simp only [DirectorySystem.replaceDirectoryEntry,hindex,if_pos hv]
  rfl

theorem getDirectoryEntry_slotted (h : s.Slotted a) (forwarder : Option (Fin n)) :
    s.getDirectoryEntry a forwarder=(true,s) := if_pos h

theorem getDirectoryEntry_free (h : ¬ s.Slotted a) (hfree : none∈s.slots (s.setIndex a))
    (forwarder : Option (Fin n)) :
    s.getDirectoryEntry a forwarder=(true,(s.seat none a).freshEntry a forwarder) :=
  (if_neg h).trans (if_pos hfree)

theorem getDirectoryEntry_crowded (h : s.Crowded a) (forwarder : Option (Fin n)) :
    s.getDirectoryEntry a forwarder=(decide (a∈s.replaced),s) :=
  (if_neg h.1).trans (if_neg h.2)

theorem Entries.erase (h : s.Entries) (a : ℕ) :
    ({s with replaced:=s.replaced.erase a} : DirectorySystem n δ).Entries :=
  ⟨h.index,h.once,h.nodup.erase a,fun b hb => h.crowded b (mem_of_mem_erase hb)⟩

end DirectorySystem

end Sniper.Coherence
