import Mathlib

/-!
# Finite runs of a fallible step function

A run is the left fold of the step over a list of inputs and stops at the first error. The rules
reduce a property of every run to one obligation about a single step.
-/

namespace Sniper.FallibleRuns
open List

universe u

variable {ε ι : Type*} {σ α β : Type u}

variable {f : α → Except ε β} {x : Except ε α} {E : ε → Prop} {e : ε} {Q : α → Prop}
  {mayFail : Prop} {i : ι} {is : List ι} {s t : σ} {G' : σ → ι → Prop}

theorem bind_ok {b : β} (h : (x >>= f) = .ok b) : ∃a,x = .ok a ∧ f a = .ok b := by
  cases x with
  | error e => cases h
  | ok a => exact ⟨a,rfl,h⟩

@[simp] theorem ok_bind (a : α) (f : α → Except ε β) : ((Except.ok a : Except ε α) >>= f)=f a := rfl

@[simp] theorem error_bind (e : ε) (f : α → Except ε β) :
    ((Except.error e : Except ε α) >>= f) = .error e := rfl

/-- Whether a computation has a result with a decidable property is decided by running it. -/
instance decidableExistsOk (x : Except ε α) (P : α → Prop) [DecidablePred P] :
    Decidable (∃a,x = .ok a ∧ P a) :=
  match x with
  | .ok a => decidable_of_iff (P a) ⟨fun h => ⟨a,rfl,h⟩,by rintro ⟨_,⟨⟩,h⟩; exact h⟩
  | .error _ => isFalse (by rintro ⟨_,⟨⟩,_⟩)

instance decidableExistsOkSnd [DecidableEq α] (x : Except ε (α × β)) (a : α) (P : β → Prop)
    [DecidablePred P] : Decidable (∃b,x = .ok (a,b) ∧ P b) :=
  match x with
  | .ok (a',b) => decidable_of_iff (a'=a ∧ P b)
      ⟨fun h => ⟨b,h.1 ▸ rfl,h.2⟩,by rintro ⟨_,⟨⟩,h⟩; exact ⟨rfl,h⟩⟩
  | .error _ => isFalse (by rintro ⟨_,⟨⟩,_⟩)

instance decidableIsOk (x : Except ε α) : Decidable (∃a,x = .ok a) :=
  decidable_of_iff (∃a,x = .ok a ∧ True) (by simp)

instance decidableIsOkSnd [DecidableEq α] (x : Except ε (α × β)) (a : α) :
    Decidable (∃b,x = .ok (a,b)) :=
  decidable_of_iff (∃b,x = .ok (a,b) ∧ True) (by simp)

instance decidableExistsSome (x : Option α) (P : α → Prop) [DecidablePred P] :
    Decidable (∃a,x=some a ∧ P a) := inferInstanceAs (Decidable (∃a∈x,P a))

instance decidableEqError [DecidableEq ε] (x : Except ε α) (e : ε) : Decidable (x = .error e) :=
  match x with
  | .ok _ => isFalse (by rintro ⟨⟩)
  | .error e' => decidable_of_iff (e'=e) ⟨congrArg _,Except.error.inj⟩

/-- What is decided of a result by running the computation leads to what is proved of it. -/
theorem exists_ok {P : α → Prop} (h : ∃a,x = .ok a ∧ P a) (hQ : ∀a,x = .ok a → P a → Q a) :
    ∃a,x = .ok a ∧ Q a := by
  obtain ⟨a,ha,hp⟩ := h
  exact ⟨a,ha,hQ a ha hp⟩

theorem exists_ok_and {C P : α → Prop} (h : ∃a,x = .ok a ∧ C a ∧ P a) (hQ : ∀a,x = .ok a → P a → Q a) :
    ∃a,x = .ok a ∧ C a ∧ Q a :=
  exists_ok h fun a ha hp => ⟨hp.1,hQ a ha hp.2⟩

section

variable {C P R : α → β → Prop}

theorem exists_ok_ok (h : ∃a,x = .ok a ∧ ∃b,f a = .ok b ∧ P a b)
    (hR : ∀a b,x = .ok a → f a = .ok b → P a b → R a b) : ∃a,x = .ok a ∧ ∃b,f a = .ok b ∧ R a b :=
  exists_ok h fun a ha hb => exists_ok hb fun b hb hp => hR a b ha hb hp

theorem exists_ok_ok_and (h : ∃a,x = .ok a ∧ ∃b,f a = .ok b ∧ C a b ∧ P a b)
    (hR : ∀a b,x = .ok a → f a = .ok b → P a b → R a b) :
    ∃a,x = .ok a ∧ ∃b,f a = .ok b ∧ C a b ∧ R a b :=
  exists_ok_ok h fun a b ha hb hp => ⟨hp.1,hR a b ha hb hp.2⟩

end

/-- Every error the computation can stop with lies in `E`. -/
def Fails (x : Except ε α) (E : ε → Prop) : Prop := ∀e,x = .error e → E e

theorem fails_ok (a : α) (E : ε → Prop) : Fails (Except.ok a) E := fun _ h => nomatch h

theorem fails_error (h : E e) : Fails (Except.error e : Except ε α) E := by
  intro e' he
  cases he
  exact h

theorem Fails.bind (hx : Fails x E) (hf : ∀a,x = .ok a → Fails (f a) E) : Fails (x >>= f) E := by
  intro e he
  cases x with
  | error e' =>
    cases he
    exact hx e rfl
  | ok a => exact hf a rfl e he

theorem Fails.mono {E' : ε → Prop} (h : Fails x E) (hE : ∀e,E e → E' e) : Fails x E' :=
  fun e he => hE e (h e he)

/-- The computation ends with `Q`; only where `mayFail` holds it may fail instead. Without a
proof of `mayFail` this is total correctness, and with one it is partial correctness. -/
def Yields (x : Except ε α) (Q : α → Prop) (mayFail : Prop) : Prop :=
  (∃a,x = .ok a ∧ Q a) ∨ mayFail ∧ ∃e,x = .error e

theorem yields_ok {a : α} (h : Q a) (mayFail : Prop) : Yields (Except.ok a : Except ε α) Q mayFail :=
  Or.inl ⟨a,rfl,h⟩

theorem yields_of_ok (hfail : mayFail) (h : ∀a,x = .ok a → Q a) : Yields x Q mayFail := by
  cases x with
  | error e => exact Or.inr ⟨hfail,e,rfl⟩
  | ok a => exact Or.inl ⟨a,rfl,h a rfl⟩

theorem Yields.bind {Q' : β → Prop} (hx : Yields x Q mayFail) (hf : ∀a,Q a → Yields (f a) Q' mayFail) :
    Yields (x >>= f) Q' mayFail := by
  rcases hx with ⟨a,rfl,ha⟩ | ⟨hfail,e,rfl⟩
  · exact hf a ha
  · exact Or.inr ⟨hfail,e,rfl⟩

theorem Yields.total (h : Yields x Q False) : ∃a,x = .ok a ∧ Q a := h.resolve_right fun hfail => hfail.1

theorem Yields.of_ok {a : α} (h : Yields x Q mayFail) (ha : x = .ok a) : Q a := by
  rcases h with ⟨a',hx,hQ⟩ | ⟨-,e,hx⟩
  · rw [hx] at ha
    cases ha
    exact hQ
  · rw [hx] at ha
    cases ha

theorem Yields.mono {Q' : α → Prop} {mayFail' : Prop} (h : Yields x Q mayFail) (hQ : ∀a,Q a → Q' a)
    (hfail : mayFail → mayFail') : Yields x Q' mayFail' := by
  rcases h with ⟨a,hx,ha⟩ | ⟨hmay,he⟩
  · exact Or.inl ⟨a,hx,hQ a ha⟩
  · exact Or.inr ⟨hfail hmay,he⟩

theorem Yields.weaken {mayFail' : Prop} (h : Yields x Q mayFail) (hfail : mayFail → mayFail') :
    Yields x Q mayFail' :=
  h.mono (fun _ ha => ha) hfail

theorem yields_foldlM {f : β → α → Except ε β} {Q : β → List α → Prop}
    (hstep : ∀b a as,Q b (a::as) → Yields (f b a) (Q · as) mayFail) {as : List α} {b : β} (h : Q b as) :
    Yields (as.foldlM f b) (Q · []) mayFail := by
  induction as generalizing b with
  | nil => exact Or.inl ⟨b,rfl,h⟩
  | cons a as ih =>
    rw [foldlM_cons]
    exact (hstep b a as h).bind fun b' h' => ih h'

/-- Run the step over all inputs, stopping at the first error. -/
def run (step : σ → ι → Except ε σ) (s : σ) (is : List ι) : Except ε σ := is.foldlM step s

/-- Every step that the run actually takes starts in a state where `G` admits it. -/
def Along (step : σ → ι → Except ε σ) (G : σ → ι → Prop) : σ → List ι → Prop
  | _,[] => True
  | s,i::is => G s i ∧ ∀s',step s i = .ok s' → Along step G s' is

variable {step : σ → ι → Except ε σ} {G : σ → ι → Prop} {I : σ → Prop} {R : σ → σ → Prop}

@[simp] theorem run_nil (s : σ) : run step s [] = .ok s := rfl

theorem run_cons (s : σ) (i : ι) (is : List ι) : run step s (i::is)=step s i >>= fun s' => run step s' is := rfl

theorem run_append (s : σ) (is js : List ι) :
    run step s (is++js)=run step s is >>= fun s' => run step s' js := by
  simp [run,foldlM_append]

theorem run_cons_ok (h : run step s (i::is) = .ok t) : ∃s',step s i = .ok s' ∧ run step s' is = .ok t :=
  bind_ok h

theorem Along.mono (hG : ∀s i,G s i → G' s i) (h : Along step G s is) : Along step G' s is := by
  induction is generalizing s with
  | nil => trivial
  | cons i is ih => exact ⟨hG s i h.1,fun s' hs => ih (h.2 s' hs)⟩

theorem Along.and (h : Along step G s is) (h' : Along step G' s is) :
    Along step (fun s i => G s i ∧ G' s i) s is := by
  induction is generalizing s with
  | nil => trivial
  | cons i is ih => exact ⟨⟨h.1,h'.1⟩,fun s' hs => ih (h.2 s' hs) (h'.2 s' hs)⟩

theorem Along.left {js : List ι} (h : Along step G s (is++js)) : Along step G s is := by
  induction is generalizing s with
  | nil => trivial
  | cons i is ih => exact ⟨h.1,fun s' hs => ih (h.2 s' hs)⟩

theorem Along.right {js : List ι} (h : Along step G s (is++js)) (hr : run step s is = .ok t) :
    Along step G t js := by
  induction is generalizing s with
  | nil =>
    cases hr
    exact h
  | cons i is ih =>
    obtain ⟨s',hs,hr⟩:=run_cons_ok hr
    exact ih (h.2 s' hs) hr

theorem along_of_forall (h : ∀s i,G s i) (s : σ) (is : List ι) : Along step G s is := by
  induction is generalizing s with
  | nil => trivial
  | cons i is ih => exact ⟨h s i,fun s' _ => ih s'⟩

theorem along_of_mem {Q : ι → Prop} (h : ∀i∈is,Q i) (s : σ) : Along step (fun _ i => Q i) s is := by
  induction is generalizing s with
  | nil => trivial
  | cons i is ih =>
    obtain ⟨hi,his⟩:=forall_mem_cons.mp h
    exact ⟨hi,fun s' _ => ih his s'⟩

theorem along_cons_error (h : step s i = .error e) : Along step G s (i::is) ↔ G s i :=
  ⟨fun hG => hG.1,fun hG => ⟨hG,fun s' hs => by rw [h] at hs; cases hs⟩⟩

theorem along_cons_ok {s' : σ} (h : step s i = .ok s') :
    Along step G s (i::is) ↔ G s i ∧ Along step G s' is := by
  refine and_congr_right fun _ => ⟨fun hG => hG s' h,fun hG t ht => ?_⟩
  rw [h] at ht
  cases ht
  exact hG

instance decidableAlong (step : σ → ι → Except ε σ) (G : σ → ι → Prop) [∀s i,Decidable (G s i)] :
    ∀s is,Decidable (Along step G s is)
  | _,[] => .isTrue trivial
  | s,i::is =>
    match h : step s i with
    | .error _ => decidable_of_iff _ (along_cons_error h).symm
    | .ok s' =>
      have := decidableAlong step G s' is
      decidable_of_iff _ (along_cons_ok h).symm

theorem run_invariant (hstep : ∀s i s',I s → G s i → step s i = .ok s' → I s') {s t : σ} {is : List ι}
    (hs : I s) (hG : Along step G s is) (hr : run step s is = .ok t) : I t := by
  induction is generalizing s with
  | nil =>
    cases hr
    exact hs
  | cons i is ih =>
    obtain ⟨s',hi,hr⟩:=run_cons_ok hr
    exact ih (hstep s i s' hs hG.1 hi) (hG.2 s' hi) hr

theorem Along.of_invariant (himp : ∀s i,I s → G s i → G' s i)
    (hstep : ∀s i s',I s → G s i → step s i = .ok s' → I s') (hs : I s) (h : Along step G s is) :
    Along step G' s is := by
  induction is generalizing s with
  | nil => trivial
  | cons i is ih =>
    exact ⟨himp s i hs h.1,fun s' hi => ih (hstep s i s' hs h.1 hi) (h.2 s' hi)⟩

theorem run_relates (hrefl : ∀s,R s s) (htrans : ∀s t u,R s t → R t u → R s u)
    (hstep : ∀s i s',I s → G s i → step s i = .ok s' → I s' ∧ R s s') (hs : I s) (hG : Along step G s is)
    (hr : run step s is = .ok t) : R s t := by
  induction is generalizing s with
  | nil =>
    cases hr
    exact hrefl _
  | cons i is ih =>
    obtain ⟨s',hi,hr⟩:=run_cons_ok hr
    obtain ⟨hs',hR⟩:=hstep s i s' hs hG.1 hi
    exact htrans _ _ _ hR (ih hs' (hG.2 s' hi) hr)

theorem run_error {E : ε → Prop} (hstep : ∀s i s',I s → G s i → step s i = .ok s' → I s')
    (herr : ∀s i e,I s → G s i → step s i = .error e → E e) {s : σ} {is : List ι} {e : ε} (hs : I s)
    (hG : Along step G s is) (hr : run step s is = .error e) : E e := by
  induction is generalizing s with
  | nil => cases hr
  | cons i is ih =>
    rw [run_cons] at hr
    cases hi : step s i with
    | error e' =>
      rw [hi] at hr
      cases hr
      exact herr s i e hs hG.1 hi
    | ok s' =>
      rw [hi] at hr
      exact ih (hstep s i s' hs hG.1 hi) (hG.2 s' hi) hr

theorem run_total (hstep : ∀s i,I s → G s i → ∃s',step s i = .ok s' ∧ I s') (hs : I s)
    (hG : Along step G s is) : ∃t,run step s is = .ok t ∧ I t := by
  induction is generalizing s with
  | nil => exact ⟨s,rfl,hs⟩
  | cons i is ih =>
    obtain ⟨s',hi,hs'⟩:=hstep s i hs hG.1
    obtain ⟨t,ht,hI⟩:=ih hs' (hG.2 s' hi)
    refine ⟨t,?_,hI⟩
    rw [run_cons,hi]
    exact ht

theorem along_of_run {H : σ → ι → Prop} (hbad : ∀s i,H s i → ¬ G s i → ∃e,step s i = .error e ∧ ¬ E e)
    (hH : Along step H s is) (hr : ∀e,run step s is = .error e → E e) : Along step G s is := by
  induction is generalizing s with
  | nil => trivial
  | cons i is ih =>
    have hG : G s i := by
      by_contra hG
      obtain ⟨e,he,hE⟩:=hbad s i hH.1 hG
      exact hE (hr e (by rw [run_cons,he]; rfl))
    refine ⟨hG,fun s' hs => ih (hH.2 s' hs) fun e he => hr e ?_⟩
    rw [run_cons,hs]
    exact he

/-- If a step that leads to a state in `P` must have been admitted by `G`, then a run all of
whose states lie in `P` has taken only steps in `G`. -/
theorem along_of_states {P : σ → Prop} (hgood : ∀s i s',I s → step s i = .ok s' → P s' → G s i)
    (hstep : ∀s i s',I s → G s i → step s i = .ok s' → I s') (hs : I s)
    (hr : ∀pre,pre <+: is → ∃t,run step s pre = .ok t ∧ P t) : Along step G s is := by
  induction is generalizing s with
  | nil => trivial
  | cons i is ih =>
    obtain ⟨t,ht,hP⟩:=hr [i] (prefix_append [i] is)
    obtain ⟨s',hi,hnil⟩:=run_cons_ok ht
    cases hnil
    have hG := hgood s i _ hs hi hP
    refine ⟨hG,fun s'' hs'' => ih (hstep s i s'' hs hG hs'') fun pre hpre => ?_⟩
    obtain ⟨t',ht',hP'⟩:=hr (i::pre) (cons_prefix_cons.mpr ⟨rfl,hpre⟩)
    rw [run_cons,hs''] at ht'
    exact ⟨t',ht',hP'⟩

/-- If a step outside `G` succeeds and leaves `P`, then a run that stays in `P` has taken only
steps in `G`; the run may also fail. -/
theorem along_of_reached {H : σ → ι → Prop} {P : σ → Prop}
    (hbad : ∀s i,I s → P s → ¬ G s i → ∃s',step s i = .ok s' ∧ ¬ P s')
    (hstep : ∀s i s',I s → H s i → step s i = .ok s' → I s') (hs : I s) (hH : Along step H s is)
    (hr : ∀pre,pre <+: is → ∀t,run step s pre = .ok t → P t) : Along step G s is := by
  induction is generalizing s with
  | nil => trivial
  | cons i is ih =>
    have hnow := hr [] nil_prefix s rfl
    have hG : G s i := by
      by_contra hG
      obtain ⟨s',hi,hP⟩:=hbad s i hs hnow hG
      exact hP (hr [i] (prefix_append [i] is) s' (by rw [run_cons,hi]; rfl))
    refine ⟨hG,fun s' hi => ih (hstep s i s' hs hH.1 hi) (hH.2 s' hi) fun pre hpre t ht => ?_⟩
    refine hr (i::pre) (cons_prefix_cons.mpr ⟨rfl,hpre⟩) t ?_
    rw [run_cons,hi]
    exact ht

variable {τ ω : Type u}

def next (f : σ → ι → Except ε (ω × σ)) (s : σ) (i : ι) : Except ε σ := do
  let (_,s') ← f s i
  .ok s'

def outputs (f : σ → ι → Except ε (ω × σ)) : σ → List ι → Except ε (List ω)
  | _,[] => .ok []
  | s,i::is => do
    let (o,s') ← f s i
    let os ← outputs f s' is
    .ok (o::os)

/-- Two step functions fail alike, or produce one output and related states. -/
def Matches (R : σ → τ → Prop) (x : Except ε (ω × σ)) (y : Except ε (ω × τ)) : Prop :=
  (∃e,x = .error e ∧ y = .error e) ∨ ∃o s t,x = .ok (o,s) ∧ y = .ok (o,t) ∧ R s t

end Sniper.FallibleRuns
