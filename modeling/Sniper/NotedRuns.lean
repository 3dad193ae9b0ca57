import Sniper.FallibleRuns

/-!
# Runs that take notes

The notes are kept when a computation fails, so a statement about every note of a run is one
about every moment of it.
-/

namespace Sniper.NotedRuns
open FallibleRuns

structure Noted (ν ε α : Type) where
  result : Except ε α
  notes : List ν

namespace Noted

variable {ν ε α β : Type} {P : ν → Prop}

instance : Monad (Noted ν ε) where
  pure a := ⟨.ok a,[]⟩
  bind x f :=
    match x.result with
    | .error e => ⟨.error e,x.notes⟩
    | .ok a => ⟨(f a).result,x.notes++(f a).notes⟩

def note (m : ν) : Noted ν ε Unit := ⟨.ok (),[m]⟩

def quiet (x : Except ε α) : Noted ν ε α := ⟨x,[]⟩

@[simp] theorem result_note (m : ν) : (note m : Noted ν ε Unit).result = .ok () := rfl

@[simp] theorem result_quiet (x : Except ε α) : (quiet x : Noted ν ε α).result=x := rfl

@[simp] theorem result_bind (x : Noted ν ε α) (f : α → Noted ν ε β) :
    (x >>= f).result=x.result >>= fun a => (f a).result := by
  obtain ⟨_ | a,notes⟩:=x
  · rfl
  · rfl

theorem bind_of_ok {x : Noted ν ε α} {a : α} (h : x.result = .ok a) (f : α → Noted ν ε β) :
    x >>= f=⟨(f a).result,x.notes++(f a).notes⟩ := by
  obtain ⟨result,notes⟩:=x
  obtain rfl : result = .ok a:=h
  rfl

theorem bind_of_error {x : Noted ν ε α} {e : ε} (h : x.result = .error e) (f : α → Noted ν ε β) :
    x >>= f=⟨.error e,x.notes⟩ := by
  obtain ⟨result,notes⟩:=x
  obtain rfl : result = .error e:=h
  rfl

theorem mk_ok_bind (a : α) (notes : List ν) (f : α → Noted ν ε β) :
    (⟨.ok a,notes⟩ : Noted ν ε α) >>= f=⟨(f a).result,notes++(f a).notes⟩ := rfl

theorem pure_eq (a : α) : (pure a : Noted ν ε α)=⟨.ok a,[]⟩ := rfl

@[simp] theorem pure_bind_eq (a : α) (f : α → Noted ν ε β) : (pure a : Noted ν ε α) >>= f=f a := rfl

@[simp] theorem quiet_ok_bind (a : α) (f : α → Noted ν ε β) : (quiet (.ok a) : Noted ν ε α) >>= f=f a := rfl

section Meets

variable {mayFail : Prop}

/-- Every note meets `P`, and the result meets `Q`; only where `mayFail` holds there may be an
error instead. -/
structure Meets (x : Noted ν ε α) (P : ν → Prop) (Q : α → Prop) (mayFail : Prop) : Prop where
  notes : ∀m∈x.notes,P m
  result : Yields x.result Q mayFail

variable {Q : α → Prop} {R : β → Prop}

theorem meets_pure {a : α} (h : Q a) : (pure a : Noted ν ε α).Meets P Q mayFail :=
  ⟨fun _ hm => absurd hm List.not_mem_nil,yields_ok h mayFail⟩

theorem meets_quiet {x : Except ε α} (h : Yields x Q mayFail) : (quiet x : Noted ν ε α).Meets P Q mayFail :=
  ⟨fun _ hm => absurd hm List.not_mem_nil,h⟩

theorem Meets.bind {x : Noted ν ε α} {f : α → Noted ν ε β} (hx : x.Meets P Q mayFail)
    (hf : ∀a,x.result = .ok a → Q a → (f a).Meets P R mayFail) : (x >>= f).Meets P R mayFail := by
  rcases hx.result with ⟨a,h,ha⟩ | ⟨hfail,e,h⟩
  · have hfa := hf a h ha
    rw [bind_of_ok h]
    refine ⟨fun m hm => ?_,hfa.result⟩
    rcases List.mem_append.mp hm with hm | hm
    · exact hx.notes m hm
    · exact hfa.notes m hm
  · rw [bind_of_error h]
    exact ⟨hx.notes,Or.inr ⟨hfail,e,rfl⟩⟩

theorem Meets.note_bind {m : ν} {f : Unit → Noted ν ε β} (hm : P m) (hf : (f ()).Meets P R mayFail) :
    (note m >>= f).Meets P R mayFail := by
  refine ⟨fun m' hm' => ?_,hf.result⟩
  rcases List.mem_cons.mp hm' with rfl | hm'
  · exact hm
  · exact hf.notes m' hm'

theorem Meets.quiet_bind {x : Except ε α} {f : α → Noted ν ε β} (hx : Yields x Q mayFail)
    (hf : ∀a,x = .ok a → Q a → (f a).Meets P R mayFail) : (quiet x >>= f).Meets P R mayFail :=
  (meets_quiet hx).bind hf

theorem Meets.mono {Q' : α → Prop} {mayFail' : Prop} {x : Noted ν ε α} (h : x.Meets P Q mayFail)
    (hQ : ∀a,Q a → Q' a) (hfail : mayFail → mayFail') : x.Meets P Q' mayFail' :=
  ⟨h.notes,h.result.mono hQ hfail⟩

theorem Meets.weaken {mayFail' : Prop} {x : Noted ν ε α} (h : x.Meets P Q mayFail)
    (hfail : mayFail → mayFail') : x.Meets P Q mayFail' :=
  ⟨h.notes,h.result.weaken hfail⟩

theorem meets_foldlM {f : β → α → Noted ν ε β} {Q : β → Prop} (hstep : ∀b a,Q b → (f b a).Meets P Q mayFail)
    {b : β} (h : Q b) (as : List α) : (as.foldlM f b).Meets P Q mayFail := by
  induction as generalizing b with
  | nil => exact meets_pure h
  | cons a as ih =>
    rw [List.foldlM_cons]
    exact (hstep b a h).bind fun b' _ h' => ih h'

theorem meets_anyhow (x : Except ε α) : (quiet x : Noted ν ε α).Meets P (fun _ => True) True :=
  meets_quiet (yields_of_ok trivial fun _ _ => trivial)

theorem meets_error (e : ε) : (quiet (.error e) : Noted ν ε α).Meets P Q True :=
  meets_quiet (Or.inr ⟨trivial,e,rfl⟩)

theorem Meets.ok_bind {x : Except ε α} {f : α → Noted ν ε β} (hf : ∀a,x = .ok a → (f a).Meets P R True) :
    (quiet x >>= f).Meets P R True :=
  (meets_anyhow x).bind fun a ha _ => hf a ha

end Meets

/-- The notes and the result, if there is one, are related by `T`. -/
def Leads (x : Noted ν ε α) (T : List ν → α → Prop) : Prop := ∀a,x.result = .ok a → T x.notes a

variable {T : List ν → α → Prop} {R : List ν → β → Prop}

theorem leads_pure {a : α} (h : T [] a) : (pure a : Noted ν ε α).Leads T := fun _ ha => Except.ok.inj ha ▸ h

theorem leads_quiet {x : Except ε α} (h : ∀a,x = .ok a → T [] a) : (quiet x : Noted ν ε α).Leads T := h

theorem leads_error (e : ε) : (quiet (.error e) : Noted ν ε α).Leads T := fun _ h => by cases h

theorem Leads.bind {x : Noted ν ε α} {f : α → Noted ν ε β} (hx : x.Leads T) (hf : ∀a,x.result =
    .ok a → T x.notes a → (f a).Leads fun notes b => R (x.notes++notes) b) : (x >>= f).Leads R := by
  cases h : x.result with
  | error e =>
    rw [bind_of_error h]
    exact fun _ ha => absurd ha (by simp)
  | ok a =>
    rw [bind_of_ok h]
    exact fun b hb => hf a h (hx a h) b hb

theorem Leads.map {x : Noted ν ε α} {f : α → β} (hx : x.Leads fun notes a => R notes (f a)) :
    (x >>= fun a => pure (f a)).Leads R :=
  hx.bind fun _ _ h => leads_pure (by rwa [List.append_nil])

theorem Leads.note_bind {m : ν} {f : Unit → Noted ν ε β} (hf : (f ()).Leads fun notes b => R (m::notes) b) :
    (note m >>= f).Leads R :=
  hf

theorem Leads.quiet_bind {x : Except ε α} {f : α → Noted ν ε β} (hf : ∀a,x = .ok a → (f a).Leads R) :
    (quiet x >>= f).Leads R := by
  cases x with
  | error e => exact fun _ hb => absurd hb (by simp)
  | ok a => exact hf a rfl

section Tracks

variable {κ : Type} (track : κ → ν → κ) (Good : κ → ν → Prop)

/-- Each note is good for the ledger of the notes before it. -/
def Sound : κ → List ν → Prop
  | _,[] => True
  | k,m::ms => Good k m ∧ Sound (track k m) ms

/-- The notes are sound for a ledger, and the result meets `Q` with the ledger that they lead to. -/
structure Tracks (k : κ) (x : Noted ν ε α) (Q : κ → α → Prop) (E : ε → Prop) : Prop where
  sound : Sound track Good k x.notes
  ok : ∀a,x.result = .ok a → Q (x.notes.foldl track k) a
  error : Fails x.result E

variable {track Good} {k : κ} {Q : κ → α → Prop} {R : κ → β → Prop} {E : ε → Prop}

theorem sound_append {ms ms' : List ν} (h : Sound track Good k ms)
    (h' : Sound track Good (ms.foldl track k) ms') : Sound track Good k (ms++ms') := by
  induction ms generalizing k with
  | nil => exact h'
  | cons m ms ih => exact ⟨h.1,ih h.2 h'⟩

theorem tracks_pure {a : α} (h : Q k a) : Tracks track Good k (pure a : Noted ν ε α) Q E :=
  ⟨trivial,fun _ ha => Except.ok.inj ha ▸ h,fails_ok a E⟩

theorem tracks_error {e : ε} (h : E e) : Tracks track Good k (quiet (.error e) : Noted ν ε α) Q E :=
  ⟨trivial,nofun,fails_error h⟩

theorem Tracks.bind {x : Noted ν ε α} {f : α → Noted ν ε β} (hx : Tracks track Good k x Q E)
    (hf : ∀k' a,x.result = .ok a → Q k' a → Tracks track Good k' (f a) R E) :
    Tracks track Good k (x >>= f) R E := by
  cases h : x.result with
  | error e =>
    rw [bind_of_error h]
    exact ⟨hx.sound,nofun,fails_error (hx.error e h)⟩
  | ok a =>
    have hfa := hf _ a h (hx.ok a h)
    rw [bind_of_ok h]
    refine ⟨sound_append hx.sound hfa.sound,fun b hb => ?_,hfa.error⟩
    rw [List.foldl_append]
    exact hfa.ok b hb

theorem Tracks.note_bind {m : ν} {f : Unit → Noted ν ε β} (hm : Good k m)
    (hf : Tracks track Good (track k m) (f ()) R E) : Tracks track Good k (note m >>= f) R E :=
  ⟨⟨hm,hf.sound⟩,hf.ok,hf.error⟩

theorem Tracks.mono {Q' : κ → α → Prop} {x : Noted ν ε α} (h : Tracks track Good k x Q E)
    (hQ : ∀k a,Q k a → Q' k a) : Tracks track Good k x Q' E :=
  ⟨h.sound,fun a ha => hQ _ a (h.ok a ha),h.error⟩

end Tracks

end Noted

open Noted

variable {ν ε σ ι : Type} {step : σ → ι → Noted ν ε σ} {G : σ → ι → Prop} {I : σ → Prop} {P : ν → Prop}

/-- Run the step over all inputs and collect the notes, stopping at the first error. -/
def runNoted (step : σ → ι → Noted ν ε σ) (s : σ) (is : List ι) : Noted ν ε σ := is.foldlM step s

theorem runNoted_cons (s : σ) (i : ι) (is : List ι) :
    runNoted step s (i::is)=step s i >>= fun s' => runNoted step s' is := rfl

variable {step' : σ → ι → Except ε σ}

section

variable (h : ∀s i,(step s i).result=step' s i)
include h

theorem runNoted_result (s : σ) (is : List ι) : (runNoted step s is).result=run step' s is := by
  induction is generalizing s with
  | nil => rfl
  | cons i is ih =>
    rw [runNoted_cons,run_cons,result_bind,h]
    exact congrArg _ (funext ih)

theorem runNoted_meets {mayFail : Prop} (hstep : ∀s i,I s → G s i → (step s i).Meets P I mayFail) {s : σ}
    {is : List ι} (hs : I s) (hG : Along step' G s is) : (runNoted step s is).Meets P I mayFail := by
  induction is generalizing s with
  | nil => exact meets_pure hs
  | cons i is ih =>
    rw [runNoted_cons]
    exact (hstep s i hs hG.1).bind fun s' hs' hI => ih hI (hG.2 s' (h s i ▸ hs'))

theorem runNoted_leads {T : σ → List ν → σ → Prop} (hrefl : ∀s,T s [] s)
    (htrans : ∀s notes t notes' u,T s notes t → T t notes' u → T s (notes++notes') u)
    (hkeep : ∀s i s',I s → G s i → step' s i = .ok s' → I s')
    (hstep : ∀s i,I s → G s i → (step s i).Leads (T s)) {s : σ} {is : List ι} (hs : I s)
    (hG : Along step' G s is) : (runNoted step s is).Leads (T s) := by
  induction is generalizing s with
  | nil => exact leads_pure (hrefl s)
  | cons i is ih =>
    rw [runNoted_cons]
    refine (hstep s i hs hG.1).bind fun s' hs' hT => ?_
    have hi : step' s i = .ok s' := h s i ▸ hs'
    exact fun t ht => htrans _ _ _ _ _ hT (ih (hkeep s i s' hs hG.1 hi) (hG.2 s' hi) t ht)

theorem runNoted_tracks {κ : Type} {track : κ → ν → κ} {Good : κ → ν → Prop} {J : κ → σ → Prop} {E : ε → Prop}
    (hstep : ∀k s i,J k s → G s i → Tracks track Good k (step s i) J E) {k : κ} {s : σ} {is : List ι}
    (hs : J k s) (hG : Along step' G s is) : Tracks track Good k (runNoted step s is) J E := by
  induction is generalizing k s with
  | nil => exact tracks_pure hs
  | cons i is ih =>
    rw [runNoted_cons]
    exact (hstep k s i hs hG.1).bind fun k' s' hs' hJ => ih hJ (hG.2 s' (h s i ▸ hs'))

end

end Sniper.NotedRuns
