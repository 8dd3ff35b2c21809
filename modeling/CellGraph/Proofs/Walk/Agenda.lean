import CellGraph.Proofs.Cell.Named
import CellGraph.Proofs.Knowledge.Coherent

/-!
# The agenda of a walk

What a walk comes to can be told from the entries of the store and from the cell at the top, without
asking what links are known to hold. There is an agenda: links are taken from it one after the other,
each makes way for the links below it, and a cell is written when these have been dealt with. An
entry that is there already is opened from its encoding, whoever holds the cell.

* `Bytes.cell`: the cell of an encoding;
* `Agenda`, `Agenda.next`: what is to be done, and how it is done;
* `Agenda.Reaches`, `Agenda.Ends`, `Agenda.Ends.unique`: an agenda comes to one end only;
* `View.Brought`, `Agenda.idle_of_brought`: links below which there is nothing to do.
-/

namespace CellGraph

/-- The entries of a store, as they can be told from outside. -/
abbrev View := Digest → Option (Bytes × Status)

/-- The cell that an encoding is read as where nothing is known. -/
def Bytes.cell (bytes : Bytes) : Cell :=
  match ((Cell.scan 0 (bytes.length + 1)).runAt ⟨bytes, 0⟩).1 with
  | .ok cell => cell
  | .error _ => default

theorem Bytes.named_cell (bytes : Bytes) : bytes.cell.named = bytes.named := by
  rw [Bytes.cell, Bytes.named]
  cases ((Cell.scan 0 (bytes.length + 1)).runAt ⟨bytes, 0⟩).1 with
  | ok cell => rfl
  | error => exact Cell.named_mk 0 (.integer 0)

/-! ### What is to be done -/

/-- Something that a walk has to do. -/
inductive Task
  /-- Bring a link up to the goal. -/
  | link (link : Link)
  /-- Bring a cell up to the goal, with an entry of its own however small it is. -/
  | cell (cell : Cell)
  /-- Write an entry; all below has been dealt with. -/
  | write (key : Digest) (encoding : Bytes)

/-- The entries so far, what has been reported, and what is to be done, in order. -/
structure Agenda where
  view : View
  novel : List Digest
  tasks : List Task

namespace Agenda

variable (goal : Status)

/-- A visit to a cell: its links, and then the cell itself if it is to stand alone. -/
def visit (cell : Cell) (key : Digest) (encoding : Bytes) (alone : Bool) : List Task :=
  cell.links.map .link ++ if alone then [.write key encoding] else []

/--
What there is to do about a digest. An entry with the status is left alone, any other one is opened.
Without an entry, the cell has to be held.
-/
def consult (view : View) (top : Bool) (key : Digest) (held : Option Cell) : Option (List Task) :=
  match view key with
  | some (encoding, status) =>
    if goal ≤ status then some []
    else some (visit encoding.cell key encoding (top || maxEmbedded < encoding.length))
  | none => held.map fun cell =>
    visit cell key cell.encode (top || maxEmbedded < cell.encode.length)

/-- What a link or a cell makes way for. -/
def opening (view : View) : Task → Option (List Task)
  | .link link =>
    match link.inline? with
    | some target => some (target.links.map .link)
    | none => consult goal view false link.digest link.target?
  | .cell cell => consult goal view true cell.digest (some cell)
  | .write _ _ => none

/-- The entries after one has been written. -/
def raise (view : View) (key : Digest) (encoding : Bytes) : View :=
  Function.update view key (some (match view key with
    | some (found, previous) => (found, previous.max goal)
    | none => (encoding, goal)))

/-- What has been reported after an entry has been written: whatever had a lower status before. -/
def report (view : View) (novel : List Digest) (key : Digest) : List Digest :=
  if ((view key).map Prod.snd).all (· < goal) then novel ++ [key] else novel

/-- Do the first thing. Nothing happens if there is none, or if it cannot be done. -/
def next (agenda : Agenda) : Agenda :=
  match agenda.tasks with
  | [] => agenda
  | .write key encoding :: rest =>
    ⟨raise goal agenda.view key encoding, report goal agenda.view agenda.novel key, rest⟩
  | task :: rest =>
    match opening goal agenda.view task with
    | some tasks => { agenda with tasks := tasks ++ rest }
    | none => agenda

/-- Doing one thing after the other leads from one agenda to another. -/
def Reaches (agenda agenda' : Agenda) : Prop := ∃ n, (next goal)^[n] agenda = agenda'

/-- The next thing to do is to follow a soft link that has no entry. -/
def Lacks (agenda : Agenda) (digest : Digest) : Prop :=
  ∃ label rest, agenda.tasks = .link (.soft label digest) :: rest ∧ agenda.view digest = none

variable {goal} {agenda agenda' agenda'' : Agenda} {view : View} {novel : List Digest}
  {rest : List Task}

theorem Reaches.refl (goal : Status) (agenda : Agenda) : Reaches goal agenda agenda := ⟨0, rfl⟩

theorem Reaches.trans (h : Reaches goal agenda agenda') (h' : Reaches goal agenda' agenda'') :
    Reaches goal agenda agenda'' := by
  obtain ⟨m, rfl⟩ := h
  obtain ⟨n, rfl⟩ := h'
  exact ⟨n + m, Function.iterate_add_apply _ n m agenda⟩

/-- A link or a cell makes way. -/
theorem Reaches.opening {task : Task} {tasks : List Task}
    (h : Agenda.opening goal view task = some tasks) :
    Reaches goal ⟨view, novel, task :: rest⟩ ⟨view, novel, tasks ++ rest⟩ := by
  refine ⟨1, ?_⟩
  cases task with
  | write => cases h
  | link | cell =>
    rw [Function.iterate_one, next]
    dsimp only
    rw [h]

/-- An entry is written. -/
theorem Reaches.write (key : Digest) (encoding : Bytes) :
    Reaches goal ⟨view, novel, .write key encoding :: rest⟩
      ⟨raise goal view key encoding, report goal view novel key, rest⟩ :=
  ⟨1, rfl⟩

/-- Where nothing more happens, things have come to the one end. -/
theorem Reaches.eq_of_halted (h : Reaches goal agenda agenda') (h' : Reaches goal agenda agenda'')
    (hhalted : agenda'.next goal = agenda') (hhalted' : agenda''.next goal = agenda'') :
    agenda' = agenda'' := by
  obtain ⟨m, rfl⟩ := h
  obtain ⟨n, rfl⟩ := h'
  rcases le_total m n with hle | hle
  · obtain ⟨k, rfl⟩ := Nat.exists_eq_add_of_le' hle
    rw [Function.iterate_add_apply, Function.iterate_fixed hhalted]
  · obtain ⟨k, rfl⟩ := Nat.exists_eq_add_of_le' hle
    rw [Function.iterate_add_apply, Function.iterate_fixed hhalted']

theorem next_of_nil (h : agenda.tasks = []) : agenda.next goal = agenda := by
  rw [next, h]

theorem Lacks.next_eq {digest : Digest} (h : agenda.Lacks digest) : agenda.next goal = agenda := by
  obtain ⟨label, rest, htasks, hentry⟩ := h
  rw [next, htasks]
  dsimp only [opening, Link.inline?, Link.digest, consult, Link.target?]
  rw [hentry]
  rfl

theorem Lacks.unique {digest digest' : Digest} (h : agenda.Lacks digest)
    (h' : agenda.Lacks digest') : digest = digest' := by
  obtain ⟨label, rest, htasks, -⟩ := h
  obtain ⟨label', rest', htasks', -⟩ := h'
  rw [htasks] at htasks'
  cases htasks'
  rfl

/-- An agenda comes to an end: all has been done, or a soft link of this digest has no entry. -/
inductive Ends (goal : Status) (start final : Agenda) : Option Digest → Prop
  | done (reaches : Reaches goal start final) (tasks : final.tasks = []) :
    Ends goal start final none
  | lacking {digest : Digest} (reaches : Reaches goal start final) (lacks : final.Lacks digest) :
    Ends goal start final (some digest)

theorem Ends.reaches {missing : Option Digest} (h : Ends goal agenda agenda' missing) :
    Reaches goal agenda agenda' := by
  cases h with
  | done reaches | lacking reaches => exact reaches

theorem Ends.halted {missing : Option Digest} (h : Ends goal agenda agenda' missing) :
    agenda'.next goal = agenda' := by
  cases h with
  | done _ tasks => exact next_of_nil tasks
  | lacking _ lacks => exact lacks.next_eq

/-- An agenda comes to one end only. -/
theorem Ends.unique {missing missing' : Option Digest} (h : Ends goal agenda agenda' missing)
    (h' : Ends goal agenda agenda'' missing') : agenda' = agenda'' ∧ missing = missing' := by
  obtain rfl := h.reaches.eq_of_halted h'.reaches h.halted h'.halted
  refine ⟨rfl, ?_⟩
  have hnil : ∀ {digest : Digest}, agenda'.tasks = [] → ¬agenda'.Lacks digest := by
    rintro digest hnil ⟨label, rest, htasks, -⟩
    rw [hnil] at htasks
    cases htasks
  cases h with
  | done _ tasks =>
    cases h' with
    | done => rfl
    | lacking _ lacks => exact absurd lacks (hnil tasks)
  | lacking _ lacks =>
    cases h' with
    | done _ tasks => exact absurd lacks (hnil tasks)
    | lacking _ lacks' => exact congrArg some (lacks.unique lacks')

/-! ### Where nothing is to be done -/

variable (goal view) in
/-- Dealing with a task changes nothing. -/
def Idle (task : Task) : Prop :=
  ∀ novel rest, Reaches goal ⟨view, novel, task :: rest⟩ ⟨view, novel, rest⟩

theorem Idle.links {links : List Link} (h : ∀ link ∈ links, Idle goal view (.link link))
    (novel : List Digest) (rest : List Task) :
    Reaches goal ⟨view, novel, links.map .link ++ rest⟩ ⟨view, novel, rest⟩ := by
  induction links with
  | nil => exact .refl _ _
  | cons link links ih =>
    exact (h link (List.mem_cons_self ..) novel _).trans
      (ih fun other hother => h other (List.mem_cons_of_mem _ hother))

/-- Nothing is to be done below a cell if nothing is to be done about the digests that it names. -/
theorem Idle.below {named : Digest → Prop}
    (h : ∀ link : Link, link.inline? = none → named link.digest → Idle goal view (.link link))
    {cell : Cell} (hcell : ∀ digest ∈ cell.named, named digest) :
    ∀ link ∈ cell.links, Idle goal view (.link link) := by
  -- The induction is on the cell: what is inline in it names no other digests.
  induction cell using Cell.induct with
  | step label value ih =>
    intro link hlink
    have hnamed : ∀ digest ∈ link.named, named digest :=
      fun digest hdigest => hcell digest (Cell.mem_named.2 ⟨link, hlink, hdigest⟩)
    cases hinline : link.inline? with
    | none =>
      rw [Link.named_of_not_inline hinline] at hnamed
      exact h link hinline (hnamed _ (List.mem_singleton_self _))
    | some target =>
      rw [Link.named_of_inline hinline] at hnamed
      have hopening : Agenda.opening goal view (.link link) = some (target.links.map .link) := by
        rw [Agenda.opening, hinline]
      exact fun novel rest => (Reaches.opening hopening).trans
        (Idle.links (ih link hlink target (Link.target?_of_inline hinline) hnamed) novel rest)

end Agenda

/--
The entry of a digest has been brought to a status: it has the status, or it is that of a small cell,
and all that this names has been brought to the status.
-/
inductive View.Brought (view : View) (status : Status) : Digest → Prop
  | entry {key : Digest} {encoding : Bytes} {held : Status}
    (find : view key = some (encoding, held)) (le : status ≤ held) : Brought view status key
  | small {key : Digest} {encoding : Bytes} {held : Status}
    (find : view key = some (encoding, held)) (small : encoding.length ≤ maxEmbedded)
    (named : ∀ digest ∈ encoding.named, Brought view status digest) : Brought view status key

namespace View.Brought

variable {view view' : View} {status status' : Status} {digest : Digest}

theorem isSome (h : view.Brought status digest) : (view digest).isSome := by
  cases h with
  | entry find | small find => rw [find]; rfl

/-- Entries stay, and their statuses only rise. -/
theorem mono (h : view.Brought status digest) (hle : status' ≤ status)
    (hgrows : ∀ key encoding held, view key = some (encoding, held) →
      ∃ held', held ≤ held' ∧ view' key = some (encoding, held')) :
    view'.Brought status' digest := by
  induction h with
  | entry find le =>
    obtain ⟨held', hheld, hentry⟩ := hgrows _ _ _ find
    exact .entry hentry ((hle.trans le).trans hheld)
  | small find small _ ih =>
    obtain ⟨held', -, hentry⟩ := hgrows _ _ _ find
    exact .small hentry small ih

end View.Brought

namespace Agenda

variable {goal : Status} {view : View}

/-- Nothing is to be done about a digest that has been brought to the goal. -/
theorem idle_of_brought {digest : Digest} (h : view.Brought goal digest) :
    ∀ link : Link, link.inline? = none → link.digest = digest → Idle goal view (.link link) := by
  induction h with
  | @entry key encoding held find le =>
    rintro link hinline rfl novel rest
    have hopening : opening goal view (.link link) = some [] := by
      rw [opening, hinline]
      dsimp only [consult]
      rw [find]
      exact if_pos le
    exact .opening hopening
  | @small key encoding held find small _ ih =>
    rintro link hinline rfl novel rest
    by_cases hle : goal ≤ held
    · have hopening : opening goal view (.link link) = some [] := by
        rw [opening, hinline]
        dsimp only [consult]
        rw [find]
        exact if_pos hle
      exact .opening hopening
    · have hopening : opening goal view (.link link) =
          some (visit encoding.cell link.digest encoding false) := by
        rw [opening, hinline]
        dsimp only [consult]
        rw [find]
        dsimp only
        rw [if_neg hle, Bool.false_or, decide_eq_false (Nat.not_lt.2 small)]
      refine (Reaches.opening hopening).trans ?_
      rw [visit, if_neg Bool.false_ne_true, List.append_nil]
      have hbelow : ∀ other ∈ encoding.cell.links, Idle goal view (.link other) :=
        Idle.below (fun other hother hnamed => ih other.digest hnamed other hother rfl)
          fun digest hdigest => encoding.named_cell ▸ hdigest
      exact Idle.links hbelow novel rest

/-- Nothing is to be done about a link if all that it names has been brought to the goal. -/
theorem idle_link {link : Link} (h : ∀ digest ∈ link.named, view.Brought goal digest) :
    Idle goal view (.link link) := by
  have hbrought : ∀ other : Link, other.inline? = none → view.Brought goal other.digest →
      Idle goal view (.link other) :=
    fun other hother hdigest => idle_of_brought hdigest other hother rfl
  have hall : ∀ other ∈ (Cell.mk 0 (.vector [link])).links, Idle goal view (.link other) := by
    refine Idle.below hbrought fun digest hdigest => ?_
    obtain ⟨other, hother, hnamed⟩ := Cell.mem_named.1 hdigest
    obtain rfl := List.mem_singleton.1 hother
    exact h digest hnamed
  exact hall link (List.mem_singleton_self link)

end Agenda

end CellGraph
