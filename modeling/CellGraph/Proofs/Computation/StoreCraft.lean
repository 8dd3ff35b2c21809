import CellGraph.Proofs.Session.Basic
import CellGraph.Proofs.Walk.Invariant

/-!
# Crafts of stores

A computation on a store is put together from a few steps: it decodes what it reads, lets a link
hold a cell or have a status, makes a link, writes a cell, notes a digest. A law that each of these
steps keeps is kept by every such computation, and whatever cell it gives is in use.

* `Law.Keeps.lookup`, `Law.Keeps.found`: reading, under any law of stores;
* `StoreCraft`: a law with what it says of the cells in use, and the steps that keep it;
* `StoreCraft.keeps_get`, `StoreCraft.keeps_resolve`: computations that read;
* `StoreCraft.keeps_walk`, `StoreCraft.keeps_make`: walks from a link and from a cell.
-/

namespace CellGraph

open StoreAction

namespace Law.Keeps

variable {law : Law Site} (owns : Set Link → Cell → Prop) {held : Set Link}

/-- A lookup gives what is read, once its digest has been compared with the key. -/
theorem lookup (hmono : ∀ {held held' cell}, owns held cell → held ⊆ held' → owns held' cell)
    (hnotes : ∀ {held} {step : Calc Digest}, Calc.OnlyNotes step →
      law.Keeps held (fun _ => True) (ofCalc step) fun _ _ _ => True)
    {key : Digest} (hget : law.Keeps held (fun _ => True) (StoreAction.get key)
      fun found held' _ => ∀ cell ∈ found, owns held' cell) :
    law.Keeps held (fun _ => True) (StoreAction.lookup key)
      fun found held' _ => ∀ cell ∈ found, owns held' cell := by
  refine hget.bind fun found held₁ _ => .assume fun hfound => ?_
  cases found with
  | none => exact .pure fun _ _ _ => nofun
  | some cell =>
    refine (hnotes cell.onlyNotes_hash).bind fun actual held₂ hsub => ?_
    split
    · refine .pure fun _ _ _ c hc => ?_
      cases hc
      exact hmono (hfound cell rfl) hsub
    · exact .throw _

/-- A cell, if one was found, as a list of items. -/
theorem found {has : Set Link → Item → Prop} {action : StoreAction (Option Cell)}
    (hhas : ∀ {held cell}, owns held cell → has held (.cell cell))
    (h : law.Keeps held (fun _ => True) action
      fun found held' _ => ∀ cell ∈ found, owns held' cell) :
    law.Keeps held (fun _ => True) (do return (← action).toList.map Item.cell)
      fun items held' _ => ∀ item ∈ items, has held' item :=
  h.bind fun found held' _ => .assume fun hfound => .pure fun _ _ _ item hitem => by
    obtain ⟨cell, hcell, rfl⟩ := List.mem_map.1 hitem
    exact hhas (hfound cell (Option.mem_toList.1 hcell))

end Law.Keeps

/-- A site whose store a cell has been written to, under its digest. -/
def Site.written (site : Site) (cell : Cell) (status : Status) : Site :=
  { site with
    store := (site.store.insert cell cell.encode cell.digest status).2
    journal := (site.store.insert cell cell.encode cell.digest status).2 :: site.journal }

/-- A law of the computations on a store, kept by each step that they are put together from. -/
structure StoreCraft where
  law : Law Site
  /-- A cell is in use. -/
  Owns : Set Link → Cell → Prop
  /-- Cells may be written with this status. -/
  May : Status → Prop
  mono : ∀ {held held' cell}, Owns held cell → held ⊆ held' → Owns held' cell
  links : ∀ {held cell}, Owns held cell → ∀ link ∈ cell.links, link ∈ held
  resident : ∀ {held site link cell}, law.inv held site → link ∈ held →
    site.known.resident link = some cell → Owns held cell
  remembers : ∀ {held site cell}, law.inv held site → site.store.Remembers cell → Owns held cell
  notes : ∀ {α : Type} {step : Calc α} {held}, Calc.OnlyNotes step →
    law.Keeps held (fun _ => True) (ofCalc step) fun _ _ _ => True
  decode : ∀ {held} (bytes : Bytes),
    law.Keeps held (fun _ => True) (ofCalc (Cell.decode bytes).run)
      fun outcome held' _ => ∀ cell, outcome = .ok cell → Owns held' cell
  accept : ∀ {held link found}, link ∈ held → (∀ cell ∈ found, Owns held cell) →
    law.Keeps held (fun _ => True) (ofAttempt (link.accept found))
      fun cell held' _ => Owns held' cell
  link : ∀ {held cell}, Owns held cell →
    law.Keeps held (fun _ => True) (ofCalc cell.link) fun link held' _ => link ∈ held'
  advance : ∀ {held link}, link ∈ held → ∀ status : Status,
    law.Keeps held (fun _ => True) (StoreAction.advance link status) fun _ _ _ => True
  report : ∀ {held} (digest : Digest),
    law.Keeps held (fun _ => True) (StoreAction.report digest) fun _ _ _ => True
  write : ∀ {held site cell status}, law.inv held site → Owns held cell → May status →
    law.inv held (site.written cell status) ∧ law.le held site held (site.written cell status)

namespace StoreCraft

variable (craft : StoreCraft) {held : Set Link}

/-! ### Reading -/

theorem keeps_get (key : Digest) :
    craft.law.Keeps held (fun _ => True) (StoreAction.get key)
      fun found held' _ => ∀ cell ∈ found, craft.Owns held' cell := by
  refine .get_bind fun site hinv _ => ?_
  cases hstore : site.store with
  | memory entries =>
    refine .pure fun site' _ _ cell hcell => ?_
    obtain ⟨entry, hentry, rfl⟩ := Option.map_eq_some_iff.1 hcell
    refine craft.remembers hinv ?_
    rw [hstore]
    exact ⟨key, entry.2, hentry⟩
  | table rows =>
    dsimp only
    cases Index.find? key.bytes rows with
    | none => exact .pure fun _ _ _ => nofun
    | some row =>
      refine (craft.decode row.encoding).of_always.bind fun outcome held' _ => ?_
      cases outcome with
      | error fault => exact .throw _
      | ok cell =>
        refine .pure fun _ _ hpost found hfound => ?_
        cases hfound
        exact hpost cell rfl

theorem keeps_lookup (key : Digest) :
    craft.law.Keeps held (fun _ => True) (StoreAction.lookup key)
      fun found held' _ => ∀ cell ∈ found, craft.Owns held' cell :=
  .lookup craft.Owns craft.mono craft.notes (craft.keeps_get key)

theorem keeps_resolve {link : Link} (hlink : link ∈ held) :
    craft.law.Keeps held (fun _ => True) (StoreAction.resolve link)
      fun cell held' _ => craft.Owns held' cell := by
  refine .get_bind fun site hinv _ => ?_
  cases hresident : site.known.resident link with
  | some cell => exact .pure fun _ _ _ => craft.resident hinv hlink hresident
  | none =>
    refine (craft.keeps_get link.digest).of_always.bind fun found held₁ hsub₁ =>
      .assume fun hfound => ?_
    exact craft.accept (hsub₁ hlink) hfound

theorem keeps_status (key : Digest) :
    craft.law.Keeps held (fun _ => True) (StoreAction.status? key) fun _ _ _ => True := by
  refine .get_bind fun site _ _ => ?_
  split
  · exact .pure fun _ _ _ => trivial
  · exact .throw _

/-! ### Writing -/

/-- A cell is written under its digest. -/
theorem keeps_write {cell : Cell} (hcell : craft.Owns held cell) {status : Status}
    (hmay : craft.May status) :
    craft.law.Keeps held (fun _ => True) (StoreAction.write cell cell.encode cell.digest status)
      fun _ _ _ => True := by
  refine (craft.notes cell.onlyNotes_noteDigest).bind fun _ held₁ hsub₁ =>
    .get_bind fun site hinv _ => ?_
  obtain ⟨hinv', hle⟩ := craft.write hinv (craft.mono hcell hsub₁) hmay
  unfold Site.written at hinv' hle
  rcases hresult : site.store.insert cell cell.encode cell.digest status with ⟨previous, store⟩
  rw [hresult] at hinv' hle
  -- The store is changed before the outcome of the write is looked at.
  have hwritten : craft.law.Keeps held₁ (fun site' => site' = site)
      (modify fun site => { site with store, journal := store :: site.journal } :
        StoreAction PUnit) fun _ _ _ => True := by
    rintro _ - rfl
    exact ⟨held₁, subset_rfl, hinv', hle, fun _ _ => trivial⟩
  refine hwritten.bind fun _ held₂ _ => ?_
  cases previous with
  | ok previous => exact .pure fun _ _ _ => trivial
  | error fault => exact .throw _

/-! ### Walks -/

variable {goal : Status} {link : Link} {target : Cell} {top : Bool} {children : StoreAction Unit}

theorem keeps_adopt (hlink : link ∈ held) (key : Digest) (goal : Status) :
    craft.law.Keeps held (fun _ => True) (adopt link key goal) fun _ _ _ => True := by
  refine (craft.keeps_status key).bind fun found held₁ hsub₁ => ?_
  cases found with
  | none => exact .pure fun _ _ _ => trivial
  | some status =>
    dsimp only
    split
    · exact (craft.advance (hsub₁ hlink) status).bind fun _ _ _ => .pure fun _ _ _ => trivial
    · exact .pure fun _ _ _ => trivial

theorem keeps_unlessReached {visit : StoreAction Unit}
    (h : craft.law.Keeps held (fun _ => True) visit fun _ _ _ => True) :
    craft.law.Keeps held (fun _ => True)
      (do unless goal ≤ (← linkStatus link) do visit) fun _ _ _ => True := by
  refine .get_bind fun site _ _ => ?_
  split
  · exact .pure fun _ _ _ => trivial
  · exact h.of_always

variable (hgoal : craft.May goal)

include hgoal

/-- The end of a visit: the target is written, if it is to stand alone. -/
theorem keeps_finish (hlink : link ∈ held) (htarget : craft.Owns held target) (alone : Bool) :
    craft.law.Keeps held (fun _ => True)
      (link.finish goal target target.encode target.digest alone) fun _ _ _ => True := by
  cases alone with
  | false => exact craft.advance hlink goal
  | true =>
    refine (craft.keeps_write htarget hgoal).bind fun previous held₁ hsub₁ => ?_
    dsimp only
    split
    · exact (craft.report target.digest).bind fun _ held₂ hsub₂ =>
        craft.advance (hsub₂ (hsub₁ hlink)) goal
    · exact craft.advance (hsub₁ hlink) goal

/-- A visit to a link whose target is at hand; `children` deals with the links of the target. -/
theorem keeps_walkTarget (hlink : link ∈ held) (htarget : craft.Owns held target)
    (hchildren : ∀ held', held ⊆ held' →
      craft.law.Keeps held' (fun _ => True) children fun _ _ _ => True) :
    craft.law.Keeps held (fun _ => True)
      (link.walkTarget goal top target target.encode children) fun _ _ _ => True := by
  refine (craft.notes target.onlyNotes_noteWritten).bind fun _ held₁ hsub₁ => ?_
  have hvisit : ∀ held₂, held₁ ⊆ held₂ → ∀ done : Bool, craft.law.Keeps held₂ (fun _ => True)
      (if done = true then pure () else do
        children
        link.finish goal target target.encode target.digest
          (top || decide (maxEmbedded < target.encode.length))) fun _ _ _ => True := by
    intro held₂ hsub₂ done
    cases done with
    | true => exact .pure fun _ _ _ => trivial
    | false =>
      exact (hchildren held₂ (hsub₁.trans hsub₂)).bind fun _ held₃ hsub₃ =>
        have hsub := (hsub₁.trans hsub₂).trans hsub₃
        craft.keeps_finish hgoal (hsub hlink) (craft.mono htarget hsub) _
  dsimp only
  split
  · exact (craft.keeps_adopt (hsub₁ hlink) _ goal).bind
      fun done held₂ hsub₂ => hvisit held₂ hsub₂ done
  · exact .bind (.pure fun _ _ _ => trivial) fun done held₂ hsub₂ => hvisit held₂ hsub₂ done

theorem keeps_walkDirect {label : Label} (hlink : .direct label target ∈ held)
    (htarget : craft.Owns held target)
    (hchildren : ∀ held', held ⊆ held' →
      craft.law.Keeps held' (fun _ => True) children fun _ _ _ => True) :
    craft.law.Keeps held (fun _ => True)
      ((Link.direct label target).walkDirect goal top target target.encode children)
      fun _ _ _ => True := by
  refine craft.keeps_unlessReached ?_
  exact (craft.notes target.onlyNotes_noteDigest).bind fun _ held₁ hsub₁ =>
    craft.keeps_walkTarget hgoal (hsub₁ hlink) (craft.mono htarget hsub₁)
      fun held₂ hsub₂ => hchildren held₂ (hsub₁.trans hsub₂)

theorem keeps_walkSoft {label : Label} {digest : Digest} (hlink : .soft label digest ∈ held)
    {follow : Cell → StoreAction Unit}
    (hfollow : ∀ {held' : Set Link} {cell : Cell}, craft.Owns held' cell →
      craft.law.Keeps held' (fun _ => True) (follow cell) fun _ _ _ => True) :
    craft.law.Keeps held (fun _ => True)
      ((Link.soft label digest).walkSoft goal top follow) fun _ _ _ => True := by
  refine craft.keeps_unlessReached (.get_bind fun site hinv _ => ?_)
  cases hresident : site.known.resident (.soft label digest) with
  | some target =>
    have htarget := craft.resident hinv hlink hresident
    exact (craft.keeps_walkTarget hgoal hlink htarget
      fun held' hsub => hfollow (craft.mono htarget hsub)).of_always
  | none =>
    refine (craft.keeps_adopt hlink _ goal).of_always.bind fun done held₁ hsub₁ => ?_
    cases done with
    | true => exact .pure fun _ _ _ => trivial
    | false =>
      exact (craft.keeps_resolve (hsub₁ hlink)).of_always.bind fun target held₂ hsub₂ =>
        .assume fun htarget => craft.keeps_walkTarget hgoal (hsub₂ (hsub₁ hlink)) htarget
          fun held' hsub => hfollow (craft.mono htarget hsub)

/-- The walk of a cell's children. -/
theorem keeps_walkChildren (hops : Nat) :
    ∀ {held : Set Link} {cell : Cell}, craft.Owns held cell →
      craft.law.Keeps held (fun _ => True) (cell.walkChildren goal hops) fun _ _ _ => True := by
  induction hops with
  | zero => exact fun _ => .throw _
  | succ hops ih =>
    intro held cell hcell
    -- The induction is on the cell: targets that it holds are walked with it, and those of soft
    -- links by what is left of the hops.
    show craft.law.Keeps held _ (cell.encodeWalking goal (Cell.walkChildren goal hops)).2 _
    induction cell using Cell.induct generalizing held with
    | step label value ihCell =>
      rw [Cell.encodeWalking_snd]
      refine (Law.Keeps.forM (fun _ _ => True) (fun link hlink held₁ hsub₁ => ?_)
        fun _ _ _ _ _ _ _ => trivial).mono_right fun _ _ _ _ => trivial
      have hlink₁ := hsub₁ (craft.links hcell link hlink)
      cases link with
      | soft label digest => exact craft.keeps_walkSoft hgoal hlink₁ ih
      | direct label target =>
        refine .from_state fun site hinv _ => .of_always ?_
        have htarget := craft.resident hinv hlink₁ rfl
        exact craft.keeps_walkDirect hgoal hlink₁ htarget
          fun held₂ hsub₂ => ihCell _ hlink target rfl (craft.mono htarget hsub₂)

/-- A walk from a link writes with its goal. -/
theorem keeps_walk (hlink : link ∈ held) :
    craft.law.Keeps held (fun _ => True) (walk goal link) fun _ _ _ => True := by
  refine .get_bind fun site hinv _ => ?_
  cases link with
  | soft label digest =>
    exact (craft.keeps_walkSoft hgoal hlink
      (craft.keeps_walkChildren hgoal (hopLimit site))).of_always
  | direct label target =>
    have htarget := craft.resident hinv hlink rfl
    exact (craft.keeps_walkDirect hgoal hlink htarget fun held' hsub =>
      craft.keeps_walkChildren hgoal (hopLimit site) (craft.mono htarget hsub)).of_always

/-- A walk from a cell writes with its goal. -/
theorem keeps_make {cell : Cell} (hcell : craft.Owns held cell) :
    craft.law.Keeps held (fun _ => True) (make goal cell) fun link held' _ => link ∈ held' :=
  (craft.link hcell).bind fun _ _ _ => .assume fun hlink =>
    (craft.keeps_walk hgoal hlink).bind fun _ _ hsub => .pure fun _ _ _ => hsub hlink

end StoreCraft

end CellGraph
