import Mathlib

/-!
# Parsing byte streams

A parser consumes exactly the bytes that were written, whatever follows them, and returns the
value they were written for. Facts of this form compose along the reads of the parser.
-/

namespace Sniper.ByteParsers

abbrev Parser (ε : Type) (α : Type) := StateT (List UInt8) (Except ε) α

variable {ε α β : Type}

def littleEndian : ℕ → ℕ → List UInt8
  | 0,_ => []
  | n+1,x => UInt8.ofNat x::littleEndian n (x / 256)

def fromLittleEndian : List UInt8 → ℕ
  | [] => 0
  | b::bs => b.toNat+256*fromLittleEndian bs

@[simp] theorem length_littleEndian (n x : ℕ) : (littleEndian n x).length=n := by
  induction n generalizing x with
  | zero => rfl
  | succ n ih => rw [littleEndian,List.length_cons,ih]

theorem fromLittleEndian_littleEndian (n x : ℕ) : fromLittleEndian (littleEndian n x)=x % 256^n := by
  induction n generalizing x with
  | zero => simp [littleEndian,fromLittleEndian,Nat.mod_one]
  | succ n ih =>
    rw [littleEndian,fromLittleEndian,ih,UInt8.toNat_ofNat']
    have hsplit : x % (256*256^n)=x % 256+256*(x / 256 % 256^n) := Nat.mod_mul
    exact hsplit.symm.trans (by rw [← Nat.pow_succ'])

/-- The next `n` bytes, or the error if there are fewer. -/
def readBytes (short : ε) (n : ℕ) : Parser ε (List UInt8) := fun input =>
  if n ≤ input.length then .ok (input.take n,input.drop n) else .error short

def peek (short : ε) : Parser ε UInt8 := fun input =>
  match input with
  | [] => .error short
  | b::_ => .ok (b,input)

def readWord (short : ε) (n : ℕ) : Parser ε ℕ := fromLittleEndian <$> readBytes short n

def readMany (p : Parser ε α) : ℕ → Parser ε (List α)
  | 0 => pure []
  | n+1 => do
    let a ← p
    let as ← readMany p n
    pure (a::as)

def require (failed : ε) (b : Bool) : Parser ε Unit := if b then pure () else throw failed

/-- In front of any other bytes, the parser consumes exactly `bytes` and returns `a`. -/
def Parses (p : Parser ε α) (bytes : List UInt8) (a : α) : Prop := ∀rest,p.run (bytes++rest) = .ok (a,rest)

/-- In front of any other bytes, the parser fails on `bytes` with the error `e`. -/
def Fails (p : Parser ε α) (bytes : List UInt8) (e : ε) : Prop := ∀rest,p.run (bytes++rest) = .error e

namespace Parses

variable {p : Parser ε α} {f : α → Parser ε β} {bs cs : List UInt8} {a : α} {b : β}

theorem pure (a : α) : Parses (Pure.pure a : Parser ε α) [] a := fun _ => rfl

theorem run_bind (hp : Parses p bs a) (f : α → Parser ε β) (rest : List UInt8) :
    (p >>= f).run (bs++rest)=(f a).run rest := by
  rw [StateT.run_bind,hp]
  rfl

theorem bind (hp : Parses p bs a) (hf : Parses (f a) cs b) : Parses (p >>= f) (bs++cs) b := by
  intro rest
  rw [List.append_assoc,hp.run_bind]
  exact hf rest

theorem bind_nil (hp : Parses p [] a) (hf : Parses (f a) cs b) : Parses (p >>= f) cs b := hp.bind hf

theorem bind_last (hp : Parses p bs a) (hf : Parses (f a) [] b) : Parses (p >>= f) bs b := by
  have h := hp.bind hf
  rwa [List.append_nil] at h

theorem map (hp : Parses p bs a) (g : α → β) : Parses (g <$> p) bs (g a) := by
  intro rest
  rw [StateT.run_map,hp]
  rfl

theorem bytes (short : ε) (bs : List UInt8) : Parses (readBytes short bs.length) bs bs := by
  intro rest
  show readBytes short bs.length (bs++rest)=_
  rw [readBytes,if_pos (by simp),List.take_left,List.drop_left]

theorem bytes_of_length {short : ε} {n : ℕ} (h : bs.length=n) :
    Parses (readBytes short n) bs bs := h ▸ bytes short bs

theorem word (short : ε) {n x : ℕ} (h : x<256^n) : Parses (readWord short n) (littleEndian n x) x := by
  have hbytes : Parses (readBytes short n) (littleEndian n x) (littleEndian n x) :=
    bytes_of_length (length_littleEndian n x)
  have hparse := hbytes.map fromLittleEndian
  rwa [fromLittleEndian_littleEndian,Nat.mod_eq_of_lt h] at hparse

theorem require {failed : ε} {c : Bool} (h : c=true) : Parses (require failed c) [] () := by
  intro rest
  rw [ByteParsers.require,if_pos h]
  rfl

theorem many {g : α → List UInt8} (h : ∀a,Parses p (g a) a) (as : List α) :
    Parses (readMany p as.length) (as.flatMap g) as := by
  induction as with
  | nil => exact Parses.pure []
  | cons a as ih =>
    rw [List.flatMap_cons]
    exact (h a).bind (ih.bind_last (Parses.pure _))

end Parses

theorem require_fails {failed : ε} {c : Bool} (h : c=false) (f : Unit → Parser ε β) (bs : List UInt8) :
    Fails (require failed c >>= f) bs failed := by
  intro rest
  rw [require,h]
  rfl

theorem run_peek (short : ε) (b : UInt8) (bs : List UInt8) : (peek short).run (b::bs) = .ok (b,b::bs) := rfl

end Sniper.ByteParsers
