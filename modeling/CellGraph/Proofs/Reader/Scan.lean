import CellGraph.Scan

/-!
# The bytes that a scan takes

A scan that succeeds has taken some bytes off the front of its input. Two notions relate a scan to
those bytes, one for each direction of a round trip:

* `Scan.Reads`: the scan gives a value on certain bytes, whatever follows them;
* `Scan.Takes`: whenever the scan succeeds, the bytes taken and the value are in some relation.

Both are closed under sequencing, so a statement about a compound scan is put together from those
about its parts.
-/

namespace CellGraph.Scan

variable {α β : Type}

/-! ### Running -/

/-- The rest of a compound scan runs where its first part ended. -/
theorem runAt_bind (scan : Scan α) (next : α → Scan β) (cursor : Cursor) :
    (scan >>= next).runAt cursor =
      match scan.runAt cursor with
      | (.ok a, after) => (next a).runAt after
      | (.error fault, after) => (.error fault, after) := by
  simp only [runAt, bind, ExceptT.bind, ExceptT.mk, StateT.bind]
  rcases scan cursor with ⟨_ | _, _⟩ <;> rfl

@[simp] theorem runAt_pure (a : α) (cursor : Cursor) :
    (pure a : Scan α).runAt cursor = (.ok a, cursor) := rfl

@[simp] theorem runAt_peek (b : UInt8) (rest : Bytes) (position : Nat) :
    peek.runAt ⟨b :: rest, position⟩ = (.ok b, ⟨b :: rest, position⟩) := rfl

@[simp] theorem runAt_remaining (cursor : Cursor) :
    remaining.runAt cursor = (.ok cursor.rest.length, cursor) := rfl

/-- A compound scan succeeds where its parts do. -/
theorem runAt_bind_ok {scan : Scan α} {next : α → Scan β} {cursor after : Cursor} {b : β} :
    (scan >>= next).runAt cursor = (.ok b, after) ↔
      ∃ a between, scan.runAt cursor = (.ok a, between) ∧
        (next a).runAt between = (.ok b, after) := by
  rw [runAt_bind]
  rcases h : scan.runAt cursor with ⟨fault | a, between⟩
  · simp
  · constructor
    · exact fun hnext => ⟨a, between, rfl, hnext⟩
    · rintro ⟨_, _, ⟨⟩, hnext⟩
      exact hnext

/-! ### Reading given bytes -/

/-- The scan gives `a` on `bytes`, whatever follows them. -/
def Reads (scan : Scan α) (position : Nat) (bytes : Bytes) (a : α) : Prop :=
  ∀ rest, scan.runAt ⟨bytes ++ rest, position⟩ = (.ok a, ⟨rest, position + bytes.length⟩)

namespace Reads

theorem pure (a : α) (position : Nat) : (Pure.pure a : Scan α).Reads position [] a :=
  fun _ => rfl

theorem bind {scan : Scan α} {next : α → Scan β} {position : Nat} {first second : Bytes} {a : α}
    {b : β} (hscan : scan.Reads position first a)
    (hnext : (next a).Reads (position + first.length) second b) :
    (scan >>= next).Reads position (first ++ second) b := by
  intro rest
  rw [runAt_bind, List.append_assoc, hscan (second ++ rest)]
  simp only [hnext rest, List.length_append, Nat.add_assoc]

/-- What is scanned last takes no bytes. -/
theorem bind_last {scan : Scan α} {next : α → Scan β} {position : Nat} {bytes : Bytes} {a : α}
    {b : β} (hscan : scan.Reads position bytes a)
    (hnext : (next a).Reads (position + bytes.length) [] b) :
    (scan >>= next).Reads position bytes b := by
  rw [← List.append_nil bytes]
  exact hscan.bind hnext

theorem map {scan : Scan α} {position : Nat} {bytes : Bytes} {a : α}
    (h : scan.Reads position bytes a) (f : α → β) :
    (scan >>= fun a => Pure.pure (f a)).Reads position bytes (f a) := by
  intro rest
  rw [runAt_bind, h rest]
  rfl

end Reads

theorem reads_byte (b : UInt8) (position : Nat) : byte.Reads position [b] b := fun _ => rfl

/-- One byte is read, and the rest after it. -/
theorem reads_byte_bind {next : UInt8 → Scan α} {position : Nat} {b : UInt8} {rest : Bytes}
    {a : α} (h : (next b).Reads (position + 1) rest a) :
    (byte >>= next).Reads position (b :: rest) a :=
  (reads_byte b position).bind h

theorem reads_slice (bytes : Bytes) (position : Nat) :
    (slice bytes.length).Reads position bytes bytes := by
  intro rest
  simp [runAt, slice]

theorem reads_digest (d : Digest) (position : Nat) : Scan.digest.Reads position d.bytes d := by
  intro rest
  have hd := d.length_bytes
  simp only [runAt, Scan.digest, List.length_append, hd]
  rw [dif_pos (by omega)]
  simp [← hd]

theorem reads_text (text : String) (position : Nat) :
    (Scan.text (Bytes.ofText text).length).Reads position (Bytes.ofText text) text := by
  unfold Scan.text
  rw [← List.append_nil (Bytes.ofText text)]
  refine Reads.bind (by simpa using reads_slice (Bytes.ofText text) position) ?_
  simp only [Utf8.decode_ofText]
  exact Reads.pure text _

/-! ### Bytes taken -/

/--
Whenever the scan succeeds, it has taken bytes off the front of its input, and `R` relates the
position where it began, those bytes and the value.
-/
def Takes (scan : Scan α) (R : Nat → Bytes → α → Prop) : Prop :=
  ∀ ⦃cursor after a⦄, scan.runAt cursor = (.ok a, after) →
    ∃ bytes, cursor.rest = bytes ++ after.rest ∧
      after.position = cursor.position + bytes.length ∧ R cursor.position bytes a

namespace Takes

variable {R : Nat → Bytes → α → Prop} {S : Nat → Bytes → β → Prop}

theorem mono {scan : Scan α} {R' : Nat → Bytes → α → Prop} (h : scan.Takes R)
    (hR : ∀ position bytes a, R position bytes a → R' position bytes a) : scan.Takes R' := by
  intro cursor after a hrun
  obtain ⟨bytes, hrest, hposition, ha⟩ := h hrun
  exact ⟨bytes, hrest, hposition, hR _ _ _ ha⟩

theorem pure {a : α} (h : ∀ position, R position [] a) : (Pure.pure a : Scan α).Takes R := by
  intro cursor after b hrun
  cases hrun
  exact ⟨[], rfl, rfl, h _⟩

theorem fail (cause : FormatFault) : (Scan.fail cause : Scan α).Takes R := by
  intro cursor after a hrun
  cases hrun

theorem throw (fault : Fault) : (MonadExcept.throw fault : Scan α).Takes R := by
  intro cursor after a hrun
  cases hrun

theorem bind {scan : Scan α} {next : α → Scan β} {S : α → Nat → Bytes → β → Prop}
    (hscan : scan.Takes R) (hnext : ∀ a, (next a).Takes (S a)) :
    (scan >>= next).Takes fun position bytes b =>
      ∃ a first second, bytes = first ++ second ∧ R position first a ∧
        S a (position + first.length) second b := by
  intro cursor after b hrun
  obtain ⟨a, between, h₁, h₂⟩ := runAt_bind_ok.1 hrun
  obtain ⟨first, hrest₁, hposition₁, hR⟩ := hscan h₁
  obtain ⟨second, hrest₂, hposition₂, hS⟩ := hnext a h₂
  refine ⟨first ++ second, ?_, ?_, a, first, second, rfl, hR, hposition₁ ▸ hS⟩
  · rw [hrest₁, hrest₂, List.append_assoc]
  · rw [hposition₂, hposition₁, List.length_append, Nat.add_assoc]

/-- What is scanned last takes no bytes. -/
theorem map {scan : Scan α} {f : α → β} (hscan : scan.Takes R)
    (h : ∀ position bytes a, R position bytes a → S position bytes (f a)) :
    (scan >>= fun a => Pure.pure (f a)).Takes S := by
  intro cursor after b hrun
  obtain ⟨a, between, h₁, h₂⟩ := runAt_bind_ok.1 hrun
  cases h₂
  obtain ⟨bytes, hrest, hposition, hR⟩ := hscan h₁
  exact ⟨bytes, hrest, hposition, h _ _ _ hR⟩

/-- A condition that is checked before a scan holds of what it takes. -/
theorem guard {condition : Prop} [Decidable condition] {cause : FormatFault} {scan : Scan α}
    (h : ¬condition → scan.Takes R) :
    (if condition then Scan.fail cause else scan).Takes R := by
  by_cases hc : condition
  · rw [if_pos hc]
    exact fail cause
  · rw [if_neg hc]
    exact h hc

/-- A condition that is checked on the way holds of what is taken afterwards. -/
theorem guard_bind {condition : Prop} [Decidable condition] {cause : FormatFault}
    {next : Unit → Scan α} (h : ¬condition → (next ()).Takes R) :
    (if condition then Scan.fail cause >>= next else next ()).Takes R := by
  by_cases hc : condition
  · rw [if_pos hc]
    exact fail cause
  · rw [if_neg hc]
    exact h hc

theorem ite {condition : Prop} [Decidable condition] {first second : Scan α}
    (hfirst : first.Takes R) (hsecond : second.Takes R) :
    (if condition then first else second).Takes R := by
  split
  · exact hfirst
  · exact hsecond

/-- A scan that looks at the next byte before it takes it. -/
theorem peek {next : UInt8 → Scan β}
    (h : ∀ b, (next b).Takes fun position bytes a =>
      bytes ≠ [] ∧ (bytes.head? = some b → S position bytes a)) :
    (Scan.peek >>= next).Takes S := by
  rintro ⟨_ | ⟨b, rest⟩, position⟩ after a hrun
  · rw [runAt_bind] at hrun
    cases hrun
  · rw [runAt_bind, runAt_peek] at hrun
    obtain ⟨bytes, hrest, hposition, hne, hS⟩ := h b hrun
    refine ⟨bytes, hrest, hposition, hS ?_⟩
    -- The byte that was looked at is still there, so it is the first of those taken.
    cases bytes with
    | nil => exact absurd rfl hne
    | cons c bytes =>
      simp only [List.cons_append, List.cons.injEq] at hrest
      rw [hrest.1, List.head?_cons]

end Takes

theorem takes_byte : byte.Takes fun _ bytes b => bytes = [b] := by
  rintro ⟨_ | ⟨b, rest⟩, position⟩ after a hrun
  · cases hrun
  · cases hrun
    exact ⟨[b], rfl, rfl, rfl⟩

theorem takes_discard_byte : (discard byte).Takes fun _ bytes _ => bytes.length = 1 := by
  rintro ⟨_ | ⟨b, rest⟩, position⟩ after a hrun
  · cases hrun
  · cases hrun
    exact ⟨[b], rfl, rfl, rfl⟩

theorem takes_slice (n : Nat) : (slice n).Takes fun _ bytes a => a = bytes ∧ bytes.length = n := by
  intro cursor after a hrun
  simp only [runAt, slice] at hrun
  split at hrun
  · cases hrun
    exact ⟨cursor.rest.take n, by simp, by simp; omega, rfl, by simp; omega⟩
  · cases hrun

theorem takes_digest : Scan.digest.Takes fun _ bytes d => bytes = d.bytes := by
  intro cursor after a hrun
  simp only [runAt, Scan.digest] at hrun
  split at hrun
  · cases hrun
    exact ⟨cursor.rest.take 32, by simp, by simp; omega, rfl⟩
  · cases hrun

theorem takes_text (n : Nat) :
    (Scan.text n).Takes fun _ bytes text => bytes = Bytes.ofText text ∧ bytes.length = n := by
  refine (Takes.bind (takes_slice n)
    (S := fun bytes _ more text => more = [] ∧ bytes = Bytes.ofText text) fun bytes => ?_).mono ?_
  · cases h : Utf8.decode bytes with
    | ok text => exact Takes.pure fun _ => ⟨rfl, Utf8.eq_ofText_of_decode h⟩
    | error fault => exact Takes.fail _
  · rintro position bytes text ⟨_, first, _, rfl, ⟨rfl, hn⟩, rfl, htext⟩
    simpa using ⟨htext, hn⟩

theorem takes_remaining : remaining.Takes fun _ bytes _ => bytes = [] := by
  intro cursor after a hrun
  cases hrun
  exact ⟨[], rfl, rfl, rfl⟩

theorem takes_position :
    Scan.position.Takes fun position bytes a => bytes = [] ∧ a = position := by
  intro cursor after a hrun
  cases hrun
  exact ⟨[], rfl, rfl, rfl, rfl⟩

end CellGraph.Scan
