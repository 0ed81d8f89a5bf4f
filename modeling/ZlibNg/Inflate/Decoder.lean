import ZlibNg.Inflate.Live

/-! The decoder as an abstract machine: it reads an ideal bit stream and keeps all output as its
history. One step handles one case of the switch, or one byte where a case handles many. -/
namespace ZlibNg

/-- The state of the saved fields, the bits to come, and the output, newest first. -/
structure Decoder where
  st : InflateState
  stream : BitStream
  hist : List UInt8

namespace Decoder

/-- Take a byte of input. -/
def takeByte (d : Decoder) (f : UInt8 → Decoder → Decoder) : Option Decoder :=
  if 8 ≤ d.stream.len then
    some (f (UInt8.ofNat (d.stream.peek 8)) { d with stream := d.stream.drop 8 })
  else none

/-- Run the program of a case. -/
def runCase (d : Decoder) (p : CaseProg) : Option Decoder :=
  (p.runStream 0 d.stream).map fun x => { d with st := x.1, stream := x.2 }

/-- One step; nothing when input is missing, and at the end. A match may reach back `reach n` bytes
after `n` bytes of output. -/
def next (reach : Nat → Nat) (d : Decoder) : Option Decoder :=
  match d.st.mode with
  | .extra =>
    if d.st.flags &&& 0x0400 ≠ 0 ∧ d.st.length ≠ 0 then
      d.takeByte fun b d =>
        { d with st := { d.st.headerCheck [b] with length := d.st.length - 1 } }
    else some { d with st := { d.st with length := 0, mode := .name } }
  | .name =>
    if d.st.flags &&& 0x0800 ≠ 0 then
      d.takeByte fun b d =>
        let st := d.st.headerCheck [b]
        { d with st := if b = 0 then { st with length := 0, mode := .comment } else st }
    else some { d with st := { d.st with length := 0, mode := .comment } }
  | .comment =>
    if d.st.flags &&& 0x1000 ≠ 0 then
      d.takeByte fun b d =>
        let st := d.st.headerCheck [b]
        { d with st := if b = 0 then { st with mode := .hcrc } else st }
    else some { d with st := { d.st with mode := .hcrc } }
  | .dict =>
    if d.st.havedict then
      some { d with st := { d.st with
        adler := adler32InitialValue, check := adler32InitialValue, mode := .type } }
    else none
  | .stored =>
    if d.stream.len % 8 ≠ 0 then some { d with stream := d.stream.drop (d.stream.len % 8) }
    else d.runCase d.st.caseStored
  | .copy_ => some { d with st := { d.st with mode := .copy } }
  | .copy =>
    if d.st.length ≠ 0 then
      d.takeByte fun b d =>
        { d with st := { d.st with length := d.st.length - 1 }, hist := b :: d.hist }
    else some { d with st := { d.st with mode := .type } }
  | .len_ => some { d with st := { d.st with mode := .len } }
  | .match_ =>
    if reach d.hist.length < d.st.offset then
      some { d with st := d.st.setBad "invalid distance too far back" }
    else some { d with
      st := { d.st with
        length := d.st.length - 1, mode := if d.st.length = 1 then .len else d.st.mode }
      hist := d.hist.getD (d.st.offset - 1) 0 :: d.hist }
  | .lit => some { d with
      st := { d.st with mode := .len }, hist := UInt8.ofNat d.st.length :: d.hist }
  | .check =>
    d.runCase { d.st with
      check := hashOf d.st.flags d.hist.reverse, total := d.hist.length }.caseCheck
  | .length => d.runCase { d.st with total := d.hist.length }.caseLength
  | _ =>
    match d.st.bitCase with
    | some p => d.runCase p
    | none => none

/-- Any number of steps. -/
def Steps (reach : Nat → Nat) : Decoder → Decoder → Prop :=
  Relation.ReflTransGen fun d d' => d.next reach = some d'

/-- The machine is deterministic: it comes to one end. -/
theorem Steps.unique {reach : Nat → Nat} {d d₁ d₂ : Decoder} (h₁ : d.Steps reach d₁)
    (h₂ : d.Steps reach d₂) (e₁ : d₁.next reach = none) (e₂ : d₂.next reach = none) : d₁ = d₂ := by
  induction h₁ using Relation.ReflTransGen.head_induction_on with
  | refl =>
    cases h₂ using Relation.ReflTransGen.head_induction_on with
    | refl => rfl
    | head h _ => rw [e₁] at h; cases h
  | head h _ ih =>
    cases h₂ using Relation.ReflTransGen.head_induction_on with
    | refl => rw [e₂] at h; cases h
    | head h' hrest =>
      rw [h] at h'
      obtain rfl := Option.some.inj h'
      exact ih hrest

end Decoder
end ZlibNg
