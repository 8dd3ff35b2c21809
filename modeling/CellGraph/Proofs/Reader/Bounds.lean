import CellGraph.Proofs.Cell.Canonicity
import CellGraph.Proofs.Reader.WrittenForms

/-!
# Readers stay in their buffer

However a reader is used, it moves forward and does not leave its buffer: whatever it answers stands
in the buffer at its position, and where it gives no answer the format is at fault. This holds from
any position, also beyond the end, with one exception: from there, not even an empty range can be
cut out of the buffer, and asking for one is no fault of the format.

* `Reader.Call`, `Reader.call`, `Reader.after`: what a reader can be asked for, and sequences of it;
* `Scan.Steady`: scans that move forward over the bytes that are there;
* `Reader.Advances`: how a reader moves, by one call and by a sequence of calls;
* `Reader.stays`: what comes of the next call after any others.
-/

namespace CellGraph

open Quantity

/-! ### Calls -/

namespace Reader

/-- What a reader can be asked for. -/
inductive Call
  | peek
  | byte
  | slice (n : Nat)
  | digest
  | signed
  | count
  /-- A count of items that take as many bytes each, or more. -/
  | length (itemSize : Nat)
  deriving DecidableEq, Repr

/-- What a reader answers. -/
inductive Answer
  | byte (b : UInt8)
  | slice (bytes : Bytes)
  | digest (d : Digest)
  | signed (n : Int64)
  | count (n : Nat)

/-- The bytes that an answer was read from. -/
def Answer.written : Answer → Bytes
  | byte b => [b]
  | slice bytes => bytes
  | digest d => d.bytes
  | signed n => Signed.encode n
  | count n => Count.encode n

/-- What comes of a call, as an answer. -/
def answering {α : Type} (answer : α → Answer) (result : Except Refusal α × Reader) :
    Except Refusal Answer × Reader :=
  (result.1.map answer, result.2)

/-- The answer to a call, if there is one, and the reader afterwards. -/
def call (reader : Reader) : Call → Except Refusal Answer × Reader
  | .peek => answering .byte (reader.run Scan.peek)
  | .byte => answering .byte (reader.run Scan.byte)
  | .slice n => answering .slice (reader.slice n)
  | .digest => answering .digest (reader.run Scan.digest)
  | .signed => answering .signed (reader.run Signed.scan)
  | .count => answering .count (reader.run Count.scan)
  | .length itemSize => answering .count (reader.run (Count.scanLength itemSize))

/-- The reader after these calls, one after the other. -/
def after (reader : Reader) (calls : List Call) : Reader :=
  calls.foldl (fun reader call => (reader.call call).2) reader

end Reader

/-! ### Steady scans -/

namespace Scan

variable {α β : Type}

/--
However the scan ends, it has moved forward over bytes that were there, and if it fails the format
is at fault.
-/
def Steady (scan : Scan α) : Prop :=
  ∀ cursor, (∃ taken, cursor.rest = taken ++ (scan.runAt cursor).2.rest ∧
      (scan.runAt cursor).2.position = cursor.position + taken.length) ∧
    ∀ fault, (scan.runAt cursor).1 = .error fault → ∃ cause, fault = .badFormat cause

namespace Steady

theorem pure (a : α) : (Pure.pure a : Scan α).Steady :=
  fun _ => ⟨⟨[], rfl, rfl⟩, nofun⟩

theorem fail (cause : FormatFault) : (Scan.fail cause : Scan α).Steady := by
  refine fun _ => ⟨⟨[], rfl, rfl⟩, ?_⟩
  rintro _ ⟨⟩
  exact ⟨cause, rfl⟩

theorem remaining : Scan.remaining.Steady := fun _ => ⟨⟨[], rfl, rfl⟩, nofun⟩

theorem peek : Scan.peek.Steady := by
  rintro ⟨_ | ⟨b, rest⟩, position⟩
  · exact fail .unexpectedEnd ⟨[], position⟩
  · exact ⟨⟨[], rfl, rfl⟩, nofun⟩

theorem byte : Scan.byte.Steady := by
  rintro ⟨_ | ⟨b, rest⟩, position⟩
  · exact fail .unexpectedEnd ⟨[], position⟩
  · exact ⟨⟨[b], rfl, rfl⟩, nofun⟩

theorem slice (n : Nat) : (Scan.slice n).Steady := by
  intro cursor
  by_cases h : n ≤ cursor.rest.length
  · simp only [runAt, Scan.slice, if_pos h]
    refine ⟨⟨cursor.rest.take n, by simp, by simp; omega⟩, ?_⟩
    rintro _ ⟨⟩
  · simp only [runAt, Scan.slice, if_neg h]
    exact fail _ cursor

theorem digest : Scan.digest.Steady := by
  intro cursor
  by_cases h : 32 ≤ cursor.rest.length
  · simp only [runAt, Scan.digest, dif_pos h]
    refine ⟨⟨cursor.rest.take 32, by simp, by simp; omega⟩, ?_⟩
    rintro _ ⟨⟩
  · simp only [runAt, Scan.digest, dif_neg h]
    exact fail _ cursor

theorem bind {scan : Scan α} {next : α → Scan β} (hscan : scan.Steady)
    (hnext : ∀ a, (next a).Steady) : (scan >>= next).Steady := by
  intro cursor
  obtain ⟨⟨first, hrest, hposition⟩, hblames⟩ := hscan cursor
  rw [runAt_bind]
  rcases hrun : scan.runAt cursor with ⟨fault | a, between⟩ <;>
    rw [hrun] at hrest hposition hblames
  · refine ⟨⟨first, hrest, hposition⟩, ?_⟩
    rintro _ ⟨⟩
    exact hblames fault rfl
  · obtain ⟨⟨second, hrest', hposition'⟩, hblames'⟩ := hnext a between
    refine ⟨⟨first ++ second, ?_, ?_⟩, hblames'⟩
    · rw [hrest, hrest', List.append_assoc]
    · rw [hposition', hposition, List.length_append, Nat.add_assoc]

theorem ite {condition : Prop} [Decidable condition] {first second : Scan α}
    (hfirst : first.Steady) (hsecond : second.Steady) :
    (if condition then first else second).Steady := by
  by_cases h : condition
  · simpa [h] using hfirst
  · simpa [h] using hsecond

end Steady

end Scan

namespace Quantity

theorem steady_extend (fits : Int → Bool) (overflow : FormatFault) (fuel : Nat) (value : Int)
    (b : UInt8) : (extend fits overflow fuel value b).Steady := by
  induction fuel generalizing value b with
  | zero => exact .fail overflow
  | succ fuel ih =>
    unfold extend
    apply Scan.Steady.ite
    · exact .ite (.bind .byte fun next => ih _ next) (.pure _)
    · exact .fail overflow

theorem Signed.steady_scan : scan.Steady := by
  refine .bind .byte fun first => .ite ?_ (.pure _)
  refine .bind .byte fun second => .ite (.fail _) ?_
  exact .bind (steady_extend _ _ _ _ second) fun n => .pure _

theorem Count.steady_scan : scan.Steady := by
  refine .bind .byte fun first => .ite (.fail _) (.ite ?_ (.pure _))
  exact .bind .byte fun second => .bind (steady_extend _ _ _ _ second) fun n => .pure _

theorem Count.steady_scanLength (itemSize : Nat) : (scanLength itemSize).Steady :=
  .bind steady_scan fun n => .bind .remaining fun _ => .ite (.fail _) (.pure n)

/-- A count of items leaves room for them. -/
theorem Count.room_of_scanLength {itemSize n : Nat} {cursor after : Cursor}
    (h : (scanLength itemSize).runAt cursor = (.ok n, after)) :
    n * max itemSize 1 ≤ after.rest.length := by
  obtain ⟨m, between, -, h⟩ := Scan.runAt_bind_ok.1 h
  obtain ⟨_, _, ⟨⟩, h⟩ := Scan.runAt_bind_ok.1 h
  split at h
  · cases h
  · next hroom =>
    cases h
    exact (Nat.le_div_iff_mul_le (Nat.le_max_right itemSize 1)).1 (not_lt.1 hroom)

end Quantity

/-! ### How a reader moves -/

namespace Reader

variable {α : Type} {reader : Reader}

/-- The reader has moved forward, and not out of its buffer. -/
structure Advances (reader later : Reader) : Prop where
  buffer : later.buffer = reader.buffer
  forward : reader.position ≤ later.position
  within : later.position ≤ max reader.position reader.buffer.length

theorem Advances.refl (reader : Reader) : reader.Advances reader :=
  ⟨rfl, Nat.le_refl _, Nat.le_max_left ..⟩

theorem Advances.trans {later latest : Reader} (h : reader.Advances later)
    (h' : later.Advances latest) : reader.Advances latest := by
  obtain ⟨hbuffer, hforward, hwithin⟩ := h
  obtain ⟨hbuffer', hforward', hwithin'⟩ := h'
  rw [hbuffer] at hwithin'
  exact ⟨hbuffer'.trans hbuffer, by omega, by omega⟩

theorem advances_run {scan : Scan α} (h : scan.Steady) (reader : Reader) :
    reader.Advances (reader.run scan).2 := by
  obtain ⟨⟨taken, hrest, hposition⟩, -⟩ := h ⟨reader.rest, reader.position⟩
  have hlength : taken.length ≤ reader.buffer.length - reader.position := by
    rw [← List.length_drop, show reader.buffer.drop reader.position = _ from hrest,
      List.length_append]
    exact Nat.le_add_right _ _
  have hafter : (reader.run scan).2.position = reader.position + taken.length := hposition
  exact ⟨rfl, by omega, by omega⟩

/-- A call moves the reader forward, also when it fails. -/
theorem advances_call (reader : Reader) (call : Call) : reader.Advances (reader.call call).2 := by
  cases call with
  | peek => exact advances_run .peek reader
  | byte => exact advances_run .byte reader
  | slice n =>
    show reader.Advances (reader.slice n).2
    unfold slice
    split
    · exact .refl reader
    · exact advances_run (.slice n) reader
  | digest => exact advances_run .digest reader
  | signed => exact advances_run Signed.steady_scan reader
  | count => exact advances_run Count.steady_scan reader
  | length itemSize => exact advances_run (Count.steady_scanLength itemSize) reader

/-- So does any sequence of calls. -/
theorem advances_after (reader : Reader) (calls : List Call) :
    reader.Advances (reader.after calls) := by
  induction calls generalizing reader with
  | nil => exact .refl reader
  | cons call rest ih => exact (reader.advances_call call).trans (ih _)

/-! ### Answers and refusals -/

/-- A refusal by a steady scan is for the format. -/
theorem refusal_run {scan : Scan α} (h : scan.Steady) {refusal : Refusal}
    (hrun : (reader.run scan).1 = .error refusal) : ∃ cause, refusal = .fault (.badFormat cause) := by
  unfold run at hrun
  rcases hscan : scan.runAt ⟨reader.rest, reader.position⟩ with ⟨fault | a, cursor⟩ <;>
    rw [hscan] at hrun <;> cases hrun
  obtain ⟨cause, rfl⟩ := (h _).2 fault (congrArg Prod.fst hscan)
  exact ⟨cause, rfl⟩

/-- What is taken stands at the position, and the reader passes over it. -/
theorem taken_run {scan : Scan α} {written : α → Bytes}
    (h : scan.Takes fun _ bytes a => bytes = written a) {a : α}
    (hrun : (reader.run scan).1 = .ok a) :
    written a <+: reader.rest ∧
      (reader.run scan).2.position = reader.position + (written a).length := by
  have hscan : (scan.runAt ⟨reader.rest, reader.position⟩).1 = .ok a := mapError_eq_ok.1 hrun
  obtain ⟨bytes, hrest, hposition, rfl⟩ := h (Prod.ext hscan rfl)
  exact ⟨⟨_, hrest.symm⟩, hposition⟩

/-- The bytes that a call passes over when it gets this answer. -/
def Call.passes : Call → Answer → Bytes
  | peek, _ => []
  | _, answer => answer.written

theorem answering_ok {answer : α → Answer} {result : Except Refusal α × Reader} {found : Answer}
    (h : (answering answer result).1 = .ok found) : ∃ a, result.1 = .ok a ∧ answer a = found := by
  obtain ⟨refusal | a, later⟩ := result
  · cases h
  · exact ⟨a, rfl, Except.ok.inj h⟩

theorem answering_error {answer : α → Answer} {result : Except Refusal α × Reader}
    {refusal : Refusal} (h : (answering answer result).1 = .error refusal) :
    result.1 = .error refusal := by
  obtain ⟨refusal | a, later⟩ := result
  · exact congrArg Except.error (Except.error.inj h)
  · cases h

/-- A range is cut out as by any scan, or it is refused, from beyond the end. -/
theorem slice_eq (reader : Reader) (n : Nat) :
    (reader.slice n = (.error .outsideBuffer, reader) ∧ n = 0 ∧
        reader.buffer.length < reader.position) ∨
      (reader.slice n = reader.run (Scan.slice n) ∧
        ¬(n = 0 ∧ reader.buffer.length < reader.position)) := by
  have hlength : reader.rest.length = reader.buffer.length - reader.position := List.length_drop
  unfold slice
  by_cases h : n ≤ reader.rest.length ∧ reader.buffer.length < reader.position
  · rw [if_pos h]
    exact .inl ⟨rfl, by omega, h.2⟩
  · rw [if_neg h]
    exact .inr ⟨rfl, by omega⟩

/-- An answer stands at the position, and a call that is no look ahead passes over it. -/
theorem answer_call {call : Call} {answer : Answer} (h : (reader.call call).1 = .ok answer) :
    answer.written <+: reader.rest ∧
      (reader.call call).2.position = reader.position + (call.passes answer).length := by
  cases call with
  | peek =>
    obtain ⟨b, hrun, rfl⟩ := answering_ok h
    have hpeek : (Scan.peek.runAt ⟨reader.rest, reader.position⟩).1 = .ok b := mapError_eq_ok.1 hrun
    rcases hrest : reader.rest with _ | ⟨c, rest⟩ <;> rw [hrest] at hpeek <;> cases hpeek
    refine ⟨⟨rest, rfl⟩, ?_⟩
    show (Scan.peek.runAt ⟨reader.rest, reader.position⟩).2.position = reader.position
    rw [hrest, Scan.runAt_peek]
  | byte =>
    obtain ⟨b, hrun, rfl⟩ := answering_ok h
    exact taken_run Scan.takes_byte hrun
  | slice n =>
    obtain ⟨bytes, hrun, rfl⟩ := answering_ok h
    rw [Reader.call]
    rcases reader.slice_eq n with ⟨hslice, -⟩ | ⟨hslice, -⟩ <;> rw [hslice] at hrun ⊢
    · cases hrun
    · exact taken_run ((Scan.takes_slice n).mono fun _ _ _ h => h.1.symm) hrun
  | digest =>
    obtain ⟨d, hrun, rfl⟩ := answering_ok h
    exact taken_run Scan.takes_digest hrun
  | signed =>
    obtain ⟨n, hrun, rfl⟩ := answering_ok h
    exact taken_run Signed.takes_scan hrun
  | count =>
    obtain ⟨n, hrun, rfl⟩ := answering_ok h
    exact taken_run (Count.takes_scan.mono fun _ _ _ h => h.1) hrun
  | length itemSize =>
    obtain ⟨n, hrun, rfl⟩ := answering_ok h
    exact taken_run ((Cell.takes_scanLength itemSize).mono fun _ _ _ h => h.1) hrun

/-- A call that is refused is refused for the format, if it does not ask for an empty range. -/
theorem refusal_call {call : Call} {refusal : Refusal} (h : (reader.call call).1 = .error refusal) :
    (∃ cause, refusal = .fault (.badFormat cause)) ∨
      refusal = .outsideBuffer ∧ call = .slice 0 ∧ reader.buffer.length < reader.position := by
  cases call with
  | peek => exact .inl (refusal_run .peek (answering_error h))
  | byte => exact .inl (refusal_run .byte (answering_error h))
  | slice n =>
    have hrun := answering_error h
    rcases reader.slice_eq n with ⟨hslice, rfl, hbeyond⟩ | ⟨hslice, -⟩ <;> rw [hslice] at hrun
    · cases hrun
      exact .inr ⟨rfl, rfl, hbeyond⟩
    · exact .inl (refusal_run (.slice n) hrun)
  | digest => exact .inl (refusal_run .digest (answering_error h))
  | signed => exact .inl (refusal_run Signed.steady_scan (answering_error h))
  | count => exact .inl (refusal_run Count.steady_scan (answering_error h))
  | length itemSize =>
    exact .inl (refusal_run (Count.steady_scanLength itemSize) (answering_error h))

theorem outside_call {reader : Reader} (h : reader.buffer.length < reader.position) :
    (reader.call (.slice 0)).1 = .error .outsideBuffer := by
  rcases reader.slice_eq 0 with ⟨hslice, -⟩ | ⟨-, hwithin⟩
  · rw [call, hslice]
    rfl
  · exact absurd ⟨rfl, h⟩ hwithin

/-- The items of a length that has been read fit in the rest of the buffer. -/
theorem room_call {itemSize n : Nat} (h : (reader.call (.length itemSize)).1 = .ok (.count n)) :
    n * max itemSize 1 ≤ (reader.call (.length itemSize)).2.rest.length := by
  obtain ⟨m, hrun, ⟨⟩⟩ := answering_ok h
  unfold run at hrun
  rcases hscan : (Count.scanLength itemSize).runAt ⟨reader.rest, reader.position⟩ with
    ⟨fault | k, cursor⟩ <;> rw [hscan] at hrun <;> cases hrun
  have hroom := Count.room_of_scanLength hscan
  obtain ⟨bytes, hrest, hposition, -⟩ := Cell.takes_scanLength itemSize hscan
  have hcursor : (reader.call (.length itemSize)).2.rest = cursor.rest := by
    show reader.buffer.drop ((Count.scanLength itemSize).runAt _).2.position = _
    rw [hscan, hposition, ← List.drop_drop, show reader.buffer.drop reader.position = _ from hrest,
      List.drop_left]
  rwa [hcursor]

/--
However a reader has been used, it has moved forward, and out of its buffer only if it was beyond
the end before; and so it does by the next call. What is answered stands in the buffer at the
position, and a length that is answered leaves room for its items. Where there is no answer the
format is at fault, but for one case: a reader that was beyond the end at first is asked for an
empty range.
-/
theorem stays (reader : Reader) (calls : List Call) (call : Call) :
    reader.Advances (reader.after calls) ∧
      (reader.after calls).Advances ((reader.after calls).call call).2 ∧
      (∀ answer, ((reader.after calls).call call).1 = .ok answer →
        answer.written <+: (reader.after calls).rest ∧
        ((reader.after calls).call call).2.position =
          (reader.after calls).position + (call.passes answer).length ∧
        ∀ itemSize n, call = .length itemSize → answer = .count n →
          n * max itemSize 1 ≤ ((reader.after calls).call call).2.rest.length) ∧
      (∀ refusal, ((reader.after calls).call call).1 = .error refusal →
        (∃ cause, refusal = .fault (.badFormat cause)) ∨ refusal = .outsideBuffer) ∧
      (((reader.after calls).call call).1 = .error .outsideBuffer ↔
        call = .slice 0 ∧ reader.buffer.length < reader.position) := by
  have hadvances := reader.advances_after calls
  have hbeyond : (reader.after calls).buffer.length < (reader.after calls).position ↔
      reader.buffer.length < reader.position := by
    obtain ⟨hbuffer, hforward, hwithin⟩ := hadvances
    rw [hbuffer]
    omega
  refine ⟨hadvances, advances_call _ call, fun answer hanswer => ?_, fun refusal hrefusal => ?_, ?_⟩
  · obtain ⟨hstands, hposition⟩ := answer_call hanswer
    refine ⟨hstands, hposition, ?_⟩
    rintro itemSize n rfl rfl
    exact room_call hanswer
  · exact (refusal_call hrefusal).imp_right And.left
  · constructor
    · intro houtside
      rcases refusal_call houtside with ⟨cause, hcause⟩ | ⟨-, hcall, h⟩
      · cases hcause
      · exact ⟨hcall, hbeyond.1 h⟩
    · rintro ⟨rfl, h⟩
      exact outside_call (hbeyond.2 h)

/-- At the end of a buffer an empty range can be cut out, but not beyond it. -/
example : ((⟨[], 0⟩ : Reader).call (.slice 0)).1 = .ok (.slice []) ∧
    ((⟨[], 1⟩ : Reader).call (.slice 0)).1 = .error .outsideBuffer := ⟨rfl, rfl⟩

end Reader

end CellGraph
