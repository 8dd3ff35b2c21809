import CellGraph.Proofs.Store.OriginLaw

/-!
# Walks keep the invariant

A walk that comes to its end has brought its link to the goal, and all that it wrote is settled. It
has brought the entry of its target there too, unless its link had the status before. One that fails
leaves behind what it did, which is settled as well.

* `Origin.keeps_finish`, `Origin.keeps_walkTarget`: a target whose children are dealt with, or can
  be;
* `Origin.keeps_walkDirect`, `Origin.keeps_walkSoft`: one link, given how its target is walked;
* `Origin.keeps_walkChildren`: all links below a cell, at every depth;
* `Origin.keeps_walk`, `Origin.keeps_makeDurable`: walks from a link and from a cell;
* `Origin.delivers_walk`: the entry with which a walk from a link ends.
-/

namespace CellGraph

open StoreAction

/-- The walk of one link below the top. -/
def Link.walkBelow (goal : Status) (follow : Cell → StoreAction Unit) : Link → StoreAction Unit
  | .direct label target =>
    (Link.direct label target).walkDirect goal false target target.encode
      (target.encodeWalking goal follow).2
  | .soft label digest => (Link.soft label digest).walkSoft goal false follow

/-- The links of a cell are walked one after the other. -/
theorem Cell.encodeWalking_snd (goal : Status) (follow : Cell → StoreAction Unit) (label : Label)
    (value : Value Link) :
    (Cell.encodeWalking goal follow (.mk label value)).2 =
      value.links.forM (Link.walkBelow goal follow) := by
  rw [Cell.encodeWalking, Cell.fold_mk]
  dsimp only
  rw [Value.links_mapLinks, List.forM_eq_forM, List.forM_map, ← List.forM_eq_forM]
  congr 1
  funext link
  cases link with
  | soft label digest =>
    rw [Link.fold_soft]
    rfl
  | direct label target =>
    rw [Link.fold_direct, Link.walkBelow, ← Cell.encodeWalking_fst goal follow target]
    rfl

namespace Origin

variable {origin : Origin} {held : Set Link} {goal : Status} {link : Link} {target : Cell}

/-- A link whose target has been dealt with is settled. -/
theorem Inv.settled_target {site : Site} (h : origin.Inv held site)
    (hinj : Set.InjOn Digest.of origin.encodings) (hstored : .stored ≤ goal)
    (htarget : target.Within origin.Covers held) (hreached : site.Reached goal target.links)
    (hleads : site.Leads link target)
    (hwritten : target.isSmall = false → site.store.Backs target.digest goal) :
    origin.Settles site.store link.rank link.named goal := by
  cases hinline : link.inline? with
  | some t =>
    obtain rfl := hleads.inline t hinline
    exact .of_inline hinline (h.settled_cell hinj htarget hstored hreached)
  | none =>
    -- A target that is not written inline has an entry: a large one because it was written, a small
    -- one because the link was led to it from there.
    refine .of_not_inline hinline ?_
    cases hsmall : target.isSmall with
    | false => exact hleads.digest ▸ hwritten hsmall
    | true =>
      obtain ⟨status, hentry⟩ := hleads.entry hinline hsmall
      exact ⟨_, status, hentry, .inr ((Cell.isSmall_iff target).1 hsmall)⟩

/-- Reporting a digest changes nothing that matters. -/
theorem keeps_report (digest : Digest) :
    origin.law.Keeps held (fun _ => True) (StoreAction.report digest) fun _ _ _ => True := by
  intro site hinv _
  refine ⟨held, subset_rfl, ?_, ⟨.refl _, .refl _⟩, fun _ _ => trivial⟩
  exact ⟨hinv.coherent, hinv.subset, hinv.known, hinv.fresh, hinv.store, hinv.remembers,
    hinv.encodings, hinv.vouched, hinv.raised, hinv.closed⟩

/-- The link is raised once its target has been written. -/
theorem keeps_raise (hstored : .stored ≤ goal) (hlink : link ∈ held)
    (htarget : target.Within origin.Covers held) :
    origin.law.Keeps held
      (fun site => site.store.HasAt target.digest goal ∧ site.Reached goal target.links ∧
        site.Leads link target)
      (StoreAction.advance link goal) fun _ _ site => site.Delivered goal link True :=
  (keeps_deliver hlink goal).mono_left fun _ hinv hpre => ⟨hpre.2.2.digest ▸ hpre.1, fun hinj =>
    hinv.settled_target hinj hstored htarget hpre.2.1 hpre.2.2 fun _ => hpre.1.backs⟩

/-- The end of a visit to a link: its target is written, if it is to stand alone. -/
theorem keeps_finish (hstored : .stored ≤ goal) (hlink : link ∈ held)
    (htarget : target.Within origin.Covers held) {alone : Bool}
    (halone : alone = true → target.encode ∈ origin.encodings)
    (hsmall : alone = false → target.isSmall = true) :
    origin.law.Keeps held (fun site => site.Reached goal target.links ∧ site.Leads link target)
      (link.finish goal target target.encode target.digest alone)
      fun _ _ site => site.Delivered goal link (alone = true) := by
  cases alone with
  | false =>
    refine (keeps_advance hlink goal).mono (fun site hinv hpre => ?_) fun _ _ _ _ _ h => ⟨h, nofun⟩
    refine ⟨.inr (hpre.2.excuses (hsmall rfl)), fun hinj => ?_⟩
    refine hinv.settled_target hinj hstored htarget hpre.1 hpre.2 fun hlarge => ?_
    rw [hsmall rfl] at hlarge
    cases hlarge
  | true =>
    -- What is known before the cell is written stays true until its link is raised.
    have hwrite := (keeps_write htarget (halone rfl) hstored).frame
      (fun site => site.Reached goal target.links ∧ site.Leads link target)
      fun _ _ _ _ hmoves h => ⟨h.1.mono hmoves, h.2.mono hmoves⟩
    refine (hwrite.mono_left fun _ _ h => ⟨h.1, h⟩).bind fun previous held₁ hsub₁ => ?_
    have hraise : ∀ held₂, held₁ ⊆ held₂ → origin.law.Keeps held₂ _ (StoreAction.advance link goal)
        fun _ _ site => site.Delivered goal link (true = true) := fun held₂ hsub₂ =>
      (keeps_raise hstored (hsub₂ (hsub₁ hlink)) (htarget.mono (hsub₁.trans hsub₂))).mono_right
        fun _ _ _ h => h.mono le_rfl fun _ => trivial
    dsimp only
    split
    · exact ((keeps_report target.digest).still (fun site =>
        site.store.HasAt target.digest goal ∧ site.Reached goal target.links ∧
          site.Leads link target)
        fun _ _ _ _ hmoves h => ⟨h.1.mono hmoves.store le_rfl, h.2.1.mono hmoves,
          h.2.2.mono hmoves⟩).bind fun _ held₂ hsub₂ => hraise held₂ hsub₂
    · exact hraise held₁ subset_rfl

/-- What stands alone was there to be written. -/
theorem encode_mem_of_alone (htarget : target.Within origin.Covers held) {top : Bool}
    (htop : top = true → target.encode ∈ origin.encodings)
    (halone : (top || decide (maxEmbedded < target.encode.length)) = true) :
    target.encode ∈ origin.encodings := by
  rcases Bool.or_eq_true_iff.1 halone with htop' | hlong
  · exact htop htop'
  · refine htarget.good.large (Bool.eq_false_iff.2 fun hsmall => ?_)
    exact absurd ((Cell.isSmall_iff target).1 hsmall) (Nat.not_le.2 (of_decide_eq_true hlong))

/-- What does not stand alone is small. -/
theorem isSmall_of_not_alone {top : Bool}
    (halone : (top || decide (maxEmbedded < target.encode.length)) = false) :
    target.isSmall = true := by
  rw [Bool.or_eq_false_iff] at halone
  exact (Cell.isSmall_iff target).2 (Nat.not_lt.1 (of_decide_eq_false halone.2))

/--
The rest of a visit: `children` deals with the links of the target, unless the status of an entry
has been taken over.
-/
theorem keeps_visit (hstored : .stored ≤ goal) {top : Bool} (hlink : link ∈ held)
    (htarget : target.Within origin.Covers held)
    (htop : top = true → target.encode ∈ origin.encodings) {children : StoreAction Unit}
    (hchildren : origin.law.Keeps held (fun _ => True) children
      fun _ _ site => site.Reached goal target.links) (done : Bool) :
    origin.law.Keeps held
      (fun site => site.Leads link target ∧ (done = true → site.Delivered goal link True))
      (if done = true then pure () else do
        children
        link.finish goal target target.encode target.digest
          (top || decide (maxEmbedded < target.encode.length)))
      fun _ _ site => site.Delivered goal link (top = true) := by
  cases done with
  | true => exact .pure fun _ _ h => (h.2 rfl).mono le_rfl fun _ => trivial
  | false =>
    have hcarry := hchildren.carry (·.Leads link target) fun _ _ _ _ hmoves h => h.mono hmoves
    refine (hcarry.mono_left fun _ _ h => h.1).bind fun _ held₁ hsub₁ => ?_
    exact (keeps_finish hstored (hsub₁ hlink) (htarget.mono hsub₁)
      (encode_mem_of_alone htarget htop) isSmall_of_not_alone).mono_right
      fun _ _ _ h => h.mono le_rfl fun htop => Bool.or_eq_true_iff.2 (.inl htop)

/-- A visit to a link whose target is at hand; `children` deals with the links of the target. -/
theorem keeps_walkTarget (hstored : .stored ≤ goal) {top : Bool} (hlink : link ∈ held)
    (htarget : target.Within origin.Covers held)
    (htop : top = true → target.encode ∈ origin.encodings) {children : StoreAction Unit}
    (hchildren : ∀ held', held ⊆ held' → origin.law.Keeps held' (fun _ => True) children
      fun _ _ site => site.Reached goal target.links) :
    origin.law.Keeps held (·.Leads link target)
      (link.walkTarget goal top target target.encode children)
      fun _ _ site => site.Delivered goal link (top = true) := by
  refine .from_state fun site hinv hleads => ?_
  refine (((keeps_ofCalc target.onlyNotes_noteWritten).still (·.Leads link target)
    fun _ _ _ _ hmoves h => h.mono hmoves).at_state hleads).bind fun _ held₁ hsub₁ => ?_
  have hvisit := fun held₂ done (hsub₂ : held₁ ⊆ held₂) =>
    have hsub := hsub₁.trans hsub₂
    keeps_visit hstored (hsub hlink) (htarget.mono hsub) htop (hchildren held₂ hsub) done
  dsimp only
  split
  · next halone =>
    have hadopt : origin.law.Keeps held₁ (fun _ => True) (adopt link link.digest goal)
        fun done _ site => done = true → site.Delivered goal link True :=
      keeps_adopt (hsub₁ hlink) goal fun t ht =>
        hleads.inline t ht ▸ encode_mem_of_alone htarget htop halone
    have hcarry := hadopt.carry (·.Leads link target) fun _ _ _ _ hmoves h => h.mono hmoves
    rw [← hleads.digest] at hcarry
    exact (hcarry.mono_right fun _ _ _ h => h.symm).bind
      fun done held₂ hsub₂ => hvisit held₂ done hsub₂
  · exact .bind (.pure fun _ _ h => ⟨h, nofun⟩)
      fun done held₂ hsub₂ => hvisit held₂ done hsub₂

/--
A visit is not needed to a link that has the status already. Otherwise the entry of its target has it
in the end, if the link is the top.
-/
theorem keeps_unlessReached {top : Bool} {visit : StoreAction Unit}
    (h : origin.law.Keeps held (fun _ => True) visit
      fun _ _ site => site.Delivered goal link (top = true)) (was : Status) :
    origin.law.Keeps held (fun site => site.known.statusAt link.label = was)
      (do unless goal ≤ (← linkStatus link) do visit)
      fun _ _ site => site.Delivered goal link (top = true ∧ was < goal) := by
  refine .get_bind fun site _ hwas => ?_
  split
  · next hle =>
    refine .pure fun site' _ heq => ?_
    rw [show site' = site from heq]
    exact ⟨hle, fun hdue => absurd (hwas ▸ hle) (not_le.2 hdue.2)⟩
  · exact h.of_always.mono_right fun _ _ _ h => h.mono le_rfl And.left

theorem delivers_walkDirect (hstored : .stored ≤ goal) {top : Bool} {label : Label}
    (hlink : .direct label target ∈ held) (htarget : target.Within origin.Covers held)
    (htop : top = true → target.encode ∈ origin.encodings) {children : StoreAction Unit}
    (hchildren : ∀ held', held ⊆ held' → origin.law.Keeps held' (fun _ => True) children
      fun _ _ site => site.Reached goal target.links) (was : Status) :
    origin.law.Keeps held (fun site => site.known.statusAt (Link.direct label target).label = was)
      ((Link.direct label target).walkDirect goal top target target.encode children)
      fun _ _ site => site.Delivered goal (.direct label target) (top = true ∧ was < goal) := by
  refine keeps_unlessReached ?_ was
  refine (keeps_ofCalc target.onlyNotes_noteDigest).bind fun _ held' hsub => ?_
  exact (keeps_walkTarget hstored (hsub hlink) (htarget.mono hsub) htop
    fun held'' hsub' => hchildren held'' (hsub.trans hsub')).mono_left
    fun site _ _ => .direct site label target

theorem keeps_walkDirect (hstored : .stored ≤ goal) {top : Bool} {label : Label}
    (hlink : .direct label target ∈ held) (htarget : target.Within origin.Covers held)
    (htop : top = true → target.encode ∈ origin.encodings) {children : StoreAction Unit}
    (hchildren : ∀ held', held ⊆ held' → origin.law.Keeps held' (fun _ => True) children
      fun _ _ site => site.Reached goal target.links) :
    origin.law.Keeps held (fun _ => True)
      ((Link.direct label target).walkDirect goal top target target.encode children)
      fun _ _ site => goal ≤ site.known.statusAt label :=
  .from_state fun site _ _ => (delivers_walkDirect hstored hlink htarget htop hchildren
    (site.known.statusAt label)).mono (fun _ _ heq => heq ▸ rfl) fun _ _ _ _ _ h => h.status

/-- A walk of the links of a cell, whichever it is, as long as all links below it are in use. -/
def Walks (origin : Origin) (goal : Status) (held : Set Link) (follow : Cell → StoreAction Unit) :
    Prop :=
  ∀ held' (target : Cell), held ⊆ held' → target.Within origin.Covers held' →
    origin.law.Keeps held' (fun _ => True) (follow target)
      fun _ _ site => site.Reached goal target.links

theorem delivers_walkSoft (hstored : .stored ≤ goal) {top : Bool} {label : Label} {digest : Digest}
    (hlink : .soft label digest ∈ held) {follow : Cell → StoreAction Unit}
    (hfollow : origin.Walks goal held follow) (was : Status) :
    origin.law.Keeps held (fun site => site.known.statusAt (Link.soft label digest).label = was)
      ((Link.soft label digest).walkSoft goal top follow)
      fun _ _ site => site.Delivered goal (.soft label digest) (top = true ∧ was < goal) := by
  refine keeps_unlessReached (.get_bind fun site hinv _ => ?_) was
  cases hresident : site.known.resident (.soft label digest) with
  | some target =>
    have hlarge := (hinv.coherent.kept label target hresident).2.1
    have htarget := hinv.coherent.resident hlink hresident
    refine (keeps_walkTarget hstored hlink htarget (fun _ => htarget.good.large hlarge)
      fun held' hsub => hfollow held' target hsub (htarget.mono hsub)).mono_left fun _ _ _ => ?_
    refine ⟨hinv.coherent.digest _ hlink target hresident, nofun, fun _ hsmall => ?_⟩
    rw [hlarge] at hsmall
    cases hsmall
  | none =>
    refine (keeps_adopt hlink goal nofun).of_always.bind fun done held₁ hsub₁ => ?_
    cases done with
    | true => exact .pure fun _ _ h => (h rfl).mono le_rfl fun _ => trivial
    | false =>
      refine (keeps_resolve (hsub₁ hlink)).of_always.bind fun target held₂ hsub₂ =>
        .from_state fun site₂ _ hpost => ?_
      obtain ⟨⟨htarget, hleads⟩, hencoding⟩ := hpost
      exact (keeps_walkTarget hstored (hsub₂ (hsub₁ hlink)) htarget (fun _ => hencoding rfl)
        fun held' hsub => hfollow held' target ((hsub₁.trans hsub₂).trans hsub)
          (htarget.mono hsub)).at_state hleads

theorem keeps_walkSoft (hstored : .stored ≤ goal) {top : Bool} {label : Label} {digest : Digest}
    (hlink : .soft label digest ∈ held) {follow : Cell → StoreAction Unit}
    (hfollow : origin.Walks goal held follow) :
    origin.law.Keeps held (fun _ => True) ((Link.soft label digest).walkSoft goal top follow)
      fun _ _ site => goal ≤ site.known.statusAt label :=
  .from_state fun site _ _ => (delivers_walkSoft hstored hlink hfollow
    (site.known.statusAt label)).mono (fun _ _ heq => heq ▸ rfl) fun _ _ _ _ _ h => h.status

/-- A walk of the links of a cell, given how to walk those of the cells that soft links lead to. -/
theorem walks_encodeWalking (hstored : .stored ≤ goal) {follow : Cell → StoreAction Unit}
    (hfollow : origin.Walks goal held follow) :
    origin.Walks goal held fun cell => (cell.encodeWalking goal follow).2 := by
  intro held' cell hsub hcell
  -- The induction is on the cell: a walk goes through the targets that it holds, and leaves those
  -- of soft links to `follow`.
  induction cell using Cell.induct generalizing held' with
  | step label value ih =>
    dsimp only
    rw [Cell.encodeWalking_snd]
    have hstable : ∀ (link : Link) held site held' site', origin.law.le held site held' site' →
        goal ≤ site.known.statusAt link.label → goal ≤ site'.known.statusAt link.label :=
      fun link _ _ _ _ hmoves h => le_trans h (hmoves.known.status link.label)
    refine Law.Keeps.forM _ (fun link hlink held₁ hsub₁ => ?_) hstable
    have hcell₁ := hcell.mono hsub₁
    have hlink₁ := hcell₁.links link (Cell.mem_everyLink_of_mem hlink)
    cases link with
    | soft label digest =>
      exact keeps_walkSoft hstored hlink₁ fun held₂ target hsub₂ htarget =>
        hfollow held₂ target ((hsub.trans hsub₁).trans hsub₂) htarget
    | direct label target =>
      refine .from_state fun site hinv _ => ?_
      have htarget := hinv.coherent.target _ hlink₁ target rfl
      have hchildren : ∀ held₂, held₁ ⊆ held₂ → origin.law.Keeps held₂ (fun _ => True)
          (target.encodeWalking goal follow).2 fun _ _ site => site.Reached goal target.links :=
        fun held₂ hsub₂ => ih _ hlink target rfl held₂ ((hsub.trans hsub₁).trans hsub₂)
          (htarget.mono hsub₂)
      have htop : false = true → target.encode ∈ origin.encodings := nofun
      exact (keeps_walkDirect hstored hlink₁ htarget htop hchildren).of_always

/-- The walk of a cell's children. It fails where soft links go on for too long. -/
theorem walks_walkChildren (hstored : .stored ≤ goal) (hops : Nat) :
    origin.Walks goal held (Cell.walkChildren goal hops) := by
  induction hops with
  | zero => exact fun _ _ _ _ => .throw _
  | succ hops ih => exact walks_encodeWalking hstored ih

/--
A walk brings its link to the goal, and the entry of its target as well if the link did not have the
status before.
-/
theorem delivers_walk (hstored : .stored ≤ goal) (hlink : link ∈ held)
    (hencoding : ∀ t, link.target? = some t → t.encode ∈ origin.encodings) (was : Status) :
    origin.law.Keeps held (fun site => site.known.statusAt link.label = was) (walk goal link)
      fun _ _ site => site.Delivered goal link (was < goal) := by
  refine .get_bind fun site hinv hwas => ?_
  have hchildren : origin.Walks goal held (Cell.walkChildren goal (hopLimit site)) :=
    walks_walkChildren hstored (hopLimit site)
  cases link with
  | soft label digest =>
    exact (delivers_walkSoft hstored hlink hchildren was).mono (fun _ _ heq => heq ▸ hwas)
      fun _ _ _ _ _ h => h.mono le_rfl fun hlt => ⟨rfl, hlt⟩
  | direct label target =>
    have htarget := hinv.coherent.target _ hlink target rfl
    exact (delivers_walkDirect hstored hlink htarget (fun _ => hencoding target rfl)
      (fun held' hsub => hchildren held' target hsub (htarget.mono hsub)) was).mono
      (fun _ _ heq => heq ▸ hwas) fun _ _ _ _ _ h => h.mono le_rfl fun hlt => ⟨rfl, hlt⟩

/-- A walk brings its link to the goal. -/
theorem keeps_walk (hstored : .stored ≤ goal) (hlink : link ∈ held)
    (hencoding : ∀ t, link.target? = some t → t.encode ∈ origin.encodings) :
    origin.law.Keeps held (fun _ => True) (walk goal link)
      fun _ _ site => goal ≤ site.known.statusAt link.label :=
  .from_state fun site _ _ => (delivers_walk hstored hlink hencoding
    (site.known.statusAt link.label)).mono (fun _ _ heq => heq ▸ rfl) fun _ _ _ _ _ h => h.status

/-- A walk from a cell. -/
theorem keeps_makeDurable (hstored : .stored ≤ goal) {cell : Cell}
    (hcell : cell.Within origin.Covers held) (hencoding : cell.encode ∈ origin.encodings) :
    origin.law.Keeps held (fun _ => True) (make goal cell) fun link held' _ => link ∈ held' := by
  have hmake : origin.law.Keeps held (fun _ => True) (ofCalc cell.link)
      fun link held' _ => link ∈ held' ∧ link.target? = some cell :=
    extends_covers.keeps_ofCalc (Knowledge.keeps_link hcell)
  refine hmake.bind fun link held' _ => .assume fun hlink => ?_
  refine (keeps_walk hstored hlink.1 fun t ht => ?_).bind fun _ held'' hsub =>
    .pure fun _ _ _ => hsub hlink.1
  rw [hlink.2] at ht
  cases ht
  exact hencoding

end Origin

end CellGraph
