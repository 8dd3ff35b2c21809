import CellGraph.Proofs.Knowledge.Coherent

/-!
# What computations on cells make known

Working out encodings and digests changes nothing about links. Making, reading and resolving links
does, and keeps what is known coherent.

* `Calc.OnlyNotes`: computations that change nothing about links;
* `Knowledge.keeps_link`, `Knowledge.keeps_soft`: new links;
* `Knowledge.keeps_decode`: reading a cell;
* `Knowledge.keeps_accept`, `Knowledge.keeps_resolve`: giving a soft link its target.
-/

namespace CellGraph

variable {α β : Type}

/-! ### Encodings and digests -/

/-- The computation changes nothing but what is noted of digests and encodings. -/
def Calc.OnlyNotes (step : Calc α) : Prop := ∀ known : Knowledge, known.Notes (step.run known).2

namespace Calc.OnlyNotes

theorem pure (a : α) : OnlyNotes (pure a) := fun known => .refl known

theorem bind {first : Calc α} {next : α → Calc β} (hfirst : OnlyNotes first)
    (hnext : ∀ a, OnlyNotes (next a)) : OnlyNotes (first >>= next) :=
  fun known => (hfirst known).trans (hnext _ _)

theorem get : OnlyNotes get := fun known => .refl known

theorem forM {list : List β} {step : β → Calc PUnit} (h : ∀ b ∈ list, OnlyNotes (step b)) :
    OnlyNotes (list.forM step) := by
  induction list with
  | nil => exact pure _
  | cons b rest ih =>
    exact (h b (List.mem_cons_self ..)).bind fun _ => ih fun c hc => h c (List.mem_cons_of_mem _ hc)

theorem noteHashed (cell : Cell) : OnlyNotes (modify (·.noteHashed cell)) :=
  fun _ => ⟨rfl, rfl, rfl⟩

theorem noteEncoded (cell : Cell) : OnlyNotes (modify (·.noteEncoded cell)) :=
  fun _ => ⟨rfl, rfl, rfl⟩

end Calc.OnlyNotes

theorem Knowledge.notes_foldl {list : List β} {change : Knowledge → β → Knowledge}
    (h : ∀ b ∈ list, ∀ known : Knowledge, known.Notes (change known b)) (known : Knowledge) :
    known.Notes (list.foldl change known) := by
  induction list generalizing known with
  | nil => exact .refl known
  | cons b rest ih =>
    exact (h b (List.mem_cons_self ..) known).trans
      (ih (fun c hc => h c (List.mem_cons_of_mem _ hc)) _)

namespace Cell

theorem notes_encodeNoting (cell : Cell) (known : Knowledge) :
    known.Notes (cell.encodeNoting.2 known) := by
  induction cell using Cell.induct generalizing known with
  | step label value ih =>
    rw [encodeNoting, Cell.fold_mk]
    dsimp only
    split
    · exact .refl known
    · refine Knowledge.Notes.trans (Knowledge.notes_foldl (fun written hw known => ?_) known)
        ⟨rfl, rfl, rfl⟩
      rw [Value.links_mapLinks] at hw
      obtain ⟨link, hlink, rfl⟩ := List.mem_map.1 hw
      cases link with
      | soft label digest =>
        rw [Link.fold_soft]
        exact .refl known
      | direct label target =>
        have htarget := ih _ hlink target rfl known
        rw [encodeNoting] at htarget
        rw [Link.fold_direct]
        dsimp only
        split
        · exact htarget
        · exact htarget.trans ⟨rfl, rfl, rfl⟩

theorem onlyNotes_noteWritten (cell : Cell) : Calc.OnlyNotes cell.noteWritten := by
  intro known
  rw [noteWritten, run_modify]
  dsimp only
  split
  · exact .refl known
  · exact cell.notes_encodeNoting known

theorem onlyNotes_noteDigest (cell : Cell) : Calc.OnlyNotes cell.noteDigest := by
  refine Calc.OnlyNotes.get.bind fun known => ?_
  split
  · exact Calc.OnlyNotes.pure _
  · exact cell.onlyNotes_noteWritten.bind fun _ => Calc.OnlyNotes.noteHashed cell

theorem onlyNotes_encoding (cell : Cell) : Calc.OnlyNotes cell.encoding := by
  intro known
  rw [encoding]
  by_cases h : known.isEncoded cell
  · show known.Notes (if known.isEncoded cell then _ else _ : Bytes × Knowledge).2
    rw [if_pos h]
    exact .refl known
  · show known.Notes (if known.isEncoded cell then _ else _ : Bytes × Knowledge).2
    rw [if_neg h]
    exact cell.notes_encodeNoting known

theorem onlyNotes_hash (cell : Cell) : Calc.OnlyNotes cell.hash :=
  cell.onlyNotes_encoding.bind fun _ => (Calc.OnlyNotes.noteHashed cell).bind fun _ =>
    Calc.OnlyNotes.pure _

theorem onlyNotes_embeds (cell : Cell) : Calc.OnlyNotes cell.embeds :=
  cell.onlyNotes_noteWritten.bind fun _ => Calc.OnlyNotes.pure _

end Cell

theorem Link.onlyNotes_noteDigest (link : Link) : Calc.OnlyNotes link.noteDigest := by
  cases link with
  | direct label target => exact target.onlyNotes_noteDigest
  | soft => exact Calc.OnlyNotes.pure _

theorem Value.onlyNotes_noteCompared (value : Value Link) : Calc.OnlyNotes value.noteCompared := by
  unfold noteCompared
  split
  · exact Calc.OnlyNotes.forM fun entry _ => entry.1.onlyNotes_noteDigest
  · exact Calc.OnlyNotes.pure _

theorem Cell.onlyNotes_noteRead (cell : Cell) : Calc.OnlyNotes cell.noteRead := by
  induction cell using Cell.induct with
  | step label value ih =>
    rw [noteRead, Cell.fold_mk]
    refine Calc.OnlyNotes.bind (Calc.OnlyNotes.forM fun note hnote => ?_) fun _ =>
      value.onlyNotes_noteCompared.bind fun _ => Calc.OnlyNotes.noteEncoded _
    rw [Value.links_mapLinks] at hnote
    obtain ⟨link, hlink, rfl⟩ := List.mem_map.1 hnote
    cases link with
    | soft label digest =>
      rw [Link.fold_soft]
      exact Calc.OnlyNotes.pure _
    | direct label target =>
      rw [Link.fold_direct]
      exact ih _ hlink target rfl

/-- A failed decoding makes nothing known of links, though labels may have been used. -/
theorem Cell.notes_of_decode_error {bytes : Bytes} {known : Knowledge} {fault : Fault}
    (h : ((decode bytes).run.run known).1 = .error fault) :
    ∃ next, known.next ≤ next ∧
      Knowledge.Notes { known with next } ((decode bytes).run.run known).2 := by
  rw [decode_eq] at h ⊢
  rcases hread : (read bytes 0).run.run known with ⟨_ | ⟨cell, used⟩, known'⟩
  · have hsame := read_error (Nat.zero_le _) (congrArg Prod.fst hread)
    rw [hread] at hsame
    cases hsame
    exact ⟨_, Nat.le_refl _, .refl _⟩
  · obtain ⟨part, rest, -, -, -, hknown⟩ :=
      readFrom_of_read (Nat.zero_le _) (congrArg Prod.fst hread)
    rw [hread] at hknown
    refine ⟨known.next + (0 + used), Nat.le_add_right _ _, ?_⟩
    have hnotes := cell.onlyNotes_noteRead { known with next := known.next + (0 + used) }
    rwa [← hknown] at hnotes

/-- Decoding uses labels, and makes nothing known of links. -/
theorem Cell.notes_decode (bytes : Bytes) (known : Knowledge) :
    ∃ next, known.next ≤ next ∧
      Knowledge.Notes { known with next } ((decode bytes).run.run known).2 := by
  cases hdecode : ((decode bytes).run.run known).1 with
  | error fault => exact notes_of_decode_error hdecode
  | ok cell =>
    refine ⟨known.next + bytes.length, Nat.le_add_right _ _, ?_⟩
    rw [(readFrom_of_decode hdecode).2]
    exact cell.onlyNotes_noteRead _

/-! ### Cells and links -/

namespace Knowledge

variable {good : Cell → Prop} {held : Set Link}

theorem keeps_notes {step : Calc α} (h : Calc.OnlyNotes step) {pre : Prop} :
    (law good).Keeps held (fun _ => pre) (liftM step : Attempt α)
      fun a _ _ => ∃ known, a = (step.run known).1 := by
  intro known hinv _
  refine ⟨held, subset_rfl, hinv.notes (h known), (h known).learns.moves, ?_⟩
  rintro a ⟨⟩
  exact ⟨known, rfl⟩

/-- One link comes into use, with the next label. -/
theorem coherent_new {known : Knowledge} (h : Coherent good held known) {link : Link}
    (hlabel : link.label = known.next)
    (htarget : ∀ t, link.target? = some t → t.Within good held) :
    Coherent good (held ∪ {link}) { known with next := known.next + 1 } ∧
      Moves held known (held ∪ {link}) { known with next := known.next + 1 } := by
  refine ⟨h.extend {link} (Nat.le_succ _) ?_ ?_ ?_, .of_next (Nat.le_succ _), ?_⟩
  · rintro _ rfl
    exact ⟨hlabel.ge, hlabel ▸ Nat.lt_succ_self _⟩
  · rintro _ rfl _ rfl _
    rfl
  · rintro _ rfl t ht
    exact (htarget t ht).mono Set.subset_union_left
  · rintro other (hother | rfl) hnot
    · exact absurd hother hnot
    · exact hlabel.ge

/-- A new direct link. -/
theorem keeps_link {target : Cell} (htarget : target.Within good held) :
    (law good).Keeps held (fun _ => True) (liftM target.link : Attempt Link)
      fun link held' _ => link ∈ held' ∧ link.target? = some target := by
  intro known hinv _
  obtain ⟨hcoherent, hmoves⟩ :=
    coherent_new hinv (show (Link.direct known.next target).label = known.next from rfl)
      (by rintro t ⟨⟩; exact htarget)
  refine ⟨_, Set.subset_union_left, hcoherent, hmoves, ?_⟩
  rintro _ ⟨⟩
  exact ⟨.inr rfl, rfl⟩

/-- A new soft link. -/
theorem keeps_soft (digest : Digest) :
    (law good).Keeps held (fun _ => True) (liftM digest.link : Attempt Link)
      fun link held' _ => link ∈ held' := by
  intro known hinv _
  obtain ⟨hcoherent, hmoves⟩ :=
    coherent_new hinv (show (Link.soft known.next digest).label = known.next from rfl) nofun
  refine ⟨_, Set.subset_union_left, hcoherent, hmoves, ?_⟩
  rintro _ ⟨⟩
  exact .inr rfl

/-- A new cell. -/
theorem keeps_make (value : Value Link) (hgood : ∀ label, good (.mk label value))
    (hlinks : ∀ link ∈ value.links, link ∈ held) :
    (law good).Keeps held (fun _ => True) (liftM (Cell.make value) : Attempt Cell)
      fun cell held' _ => cell.Within good held' := by
  intro known hinv _
  have hextend := hinv.extend ∅ (Nat.le_succ _) (by simp) (by simp) (by simp)
  rw [Set.union_empty] at hextend
  refine ⟨held, subset_rfl, hextend, ?_, ?_⟩
  · exact (Learns.of_next (Nat.le_succ _)).moves
  · rintro _ ⟨⟩
    exact hinv.within (hgood _) hlinks

theorem keeps_load {link : Link} (hlink : link ∈ held) :
    (law good).Keeps held (fun _ => True) link.load fun cell held' _ => cell.Within good held' := by
  refine Law.Keeps.get.bind fun known held' hsub => ?_
  cases hresident : known.resident link with
  | none => exact .throw _
  | some cell =>
    refine .pure fun s hinv hs => ?_
    rw [hs.1] at hresident
    exact hinv.resident (hsub hlink) hresident

theorem keeps_advance {link : Link} (hlink : link ∈ held) :
    (law good).Keeps held (fun _ => True)
      (modify fun known => known.advance link .verified : Attempt PUnit) fun _ _ _ => True :=
  fun known hinv _ => ⟨held, subset_rfl, hinv.advance hlink .verified,
    (Learns.advance_verified known link).moves, fun _ _ => trivial⟩

theorem keeps_keep {link : Link} {cell : Cell} (hlink : link ∈ held)
    (hcell : cell.Within good held) (hlarge : cell.isSmall = false)
    (hdigest : cell.digest = link.digest) :
    (law good).Keeps held (fun _ => True) (modify fun known => known.keep link cell : Attempt PUnit)
      fun _ _ _ => True :=
  fun known hinv _ => ⟨held, subset_rfl, hinv.keep hlink hcell hlarge hdigest,
    (Learns.keep known link cell).moves, fun _ _ => trivial⟩

/-- A link takes a cell that was found for it, if it has the right digest. -/
theorem keeps_accept {link : Link} (hlink : link ∈ held) {found : Option Cell}
    (hfound : ∀ cell ∈ found, cell.Within good held) :
    (law good).Keeps held (fun _ => True) (link.accept found)
      fun cell held' _ =>
        cell.Within good held' ∧ found = some cell ∧ cell.digest = link.digest := by
  cases found with
  | none => exact .throw _
  | some cell =>
    have hcell := hfound cell rfl
    refine (keeps_notes cell.onlyNotes_hash).bind fun digest held₁ hsub₁ => .assume ?_
    rintro ⟨known, rfl⟩
    rw [show (cell.hash.run known).1 = cell.digest from cell.fst_hash known]
    split
    · exact .throw _
    · next hne =>
      have hdigest : cell.digest = link.digest := not_not.1 hne
      refine (keeps_notes cell.onlyNotes_embeds).bind fun small held₂ hsub₂ => .assume ?_
      rintro ⟨known, rfl⟩
      have hend : ∀ held₃, held₂ ⊆ held₃ → (law good).Keeps held₃ (fun _ => True)
          (do modify fun known => known.advance link .verified
              return cell : Attempt Cell)
          fun c held' _ => c.Within good held' ∧ some cell = some c ∧ c.digest = link.digest := by
        intro held₃ hsub₃
        have hheld : held ⊆ held₃ := (hsub₁.trans hsub₂).trans hsub₃
        refine (keeps_advance (hheld hlink)).bind fun _ held₄ hsub₄ => .pure fun _ _ _ => ?_
        exact ⟨hcell.mono (hheld.trans hsub₄), rfl, hdigest⟩
      dsimp only
      -- A cell that is small is not kept, so that the link goes on being written as a digest.
      split
      · exact hend held₂ subset_rfl
      · next hlarge =>
        have hheld : held ⊆ held₂ := hsub₁.trans hsub₂
        have hkeep :=
          keeps_keep (hheld hlink) (hcell.mono hheld) (Bool.eq_false_iff.2 hlarge) hdigest
        exact hkeep.bind fun _ held₃ hsub₃ => (hend held₃ hsub₃).of_always

theorem keeps_resolve {link : Link} (hlink : link ∈ held) {ask : Digest → Attempt (Option Cell)}
    (hask : ∀ held', held ⊆ held' → (law good).Keeps held' (fun _ => True) (ask link.digest)
      fun found held'' _ => ∀ cell ∈ found, cell.Within good held'') :
    (law good).Keeps held (fun _ => True) (link.resolve ask)
      fun cell held' _ => cell.Within good held' := by
  refine Law.Keeps.get.bind fun known held₁ hsub₁ => ?_
  cases hresident : known.resident link with
  | some cell =>
    refine .pure fun s hinv hs => ?_
    rw [hs.1] at hresident
    exact hinv.resident (hsub₁ hlink) hresident
  | none =>
    refine (hask held₁ hsub₁).of_always.bind fun found held₂ hsub₂ => .assume fun hfound => ?_
    exact (keeps_accept (hsub₂ (hsub₁ hlink)) hfound).mono_right fun _ _ _ h => h.1

/-! ### Reading -/

/-- The links of a cell that has been read come into use. -/
theorem coherent_readFrom {known : Knowledge} (h : Coherent good held known) {offset : Nat}
    {bytes : Bytes} {cell : Cell} (hread : Cell.ReadFrom known.next offset bytes cell)
    (hgood : ∀ c : Cell, c.value.Sound → (c.isSmall ∨ c.encode = bytes) → good c) {next : Label}
    (hnext : known.next + offset + bytes.length ≤ next) :
    Coherent good (held ∪ {link | link ∈ cell.everyLink}) { known with next } ∧
      cell.Within good (held ∪ {link | link ∈ cell.everyLink}) := by
  refine ⟨h.extend _ (by grind) (fun link hlink => ?_) (fun a ha b hb heq => ?_)
    (fun link hlink t ht => ⟨?_, fun other hother => ?_⟩), ?_, fun _ hlink => .inr hlink⟩
  · have := hread.laid.within link hlink
    grind
  · exact hread.laid.label_inj ha hb heq
  · refine hgood t (hread.laid.sound link hlink t ht) (.inl ?_)
    exact (Cell.isSmall_iff t).2 (Link.written_of_inline (hread.laid.inline link hlink t ht)).2
  · exact .inr (Cell.mem_everyLink_trans hlink ht hother)
  · exact hgood cell hread.sound (.inr hread.encode)

/-- A cell that has been read is good, and all its links are in use. -/
theorem keeps_decode {bytes : Bytes}
    (hgood : ∀ c : Cell, c.value.Sound → (c.isSmall ∨ c.encode = bytes) → good c) :
    (law good).Keeps held (fun _ => True) (Cell.decode bytes)
      fun cell held' _ => cell.Within good held' ∧ cell.encode = bytes := by
  intro known hinv _
  cases hdecode : ((Cell.decode bytes).run.run known).1 with
  | ok cell =>
    obtain ⟨hfrom, hknown⟩ := Cell.readFrom_of_decode hdecode
    have hnotes := Cell.onlyNotes_noteRead cell { known with next := known.next + bytes.length }
    rw [← hknown] at hnotes
    obtain ⟨hcoherent, hcell⟩ := coherent_readFrom hinv hfrom hgood (Nat.le_refl _)
    refine ⟨_, Set.subset_union_left, hcoherent.notes hnotes,
      ⟨(Learns.of_next (Nat.le_add_right _ _)).trans hnotes.learns, ?_⟩, ?_⟩
    · rintro link (hlink | hlink) hnot
      · exact absurd hlink hnot
      · exact Nat.le_of_lt (hfrom.laid.within link hlink).1
    · rintro _ ⟨⟩
      exact ⟨hcell, hfrom.encode⟩
  | error fault =>
    -- Labels may have been used up, but no link has come into use.
    obtain ⟨next, hnext, hnotes⟩ := Cell.notes_of_decode_error hdecode
    have hcoherent := hinv.extend ∅ hnext (by simp) (by simp) (by simp)
    rw [Set.union_empty] at hcoherent
    exact ⟨held, subset_rfl, hcoherent.notes hnotes,
      ((Learns.of_next hnext).trans hnotes.learns).moves, by rintro a ⟨⟩⟩

end Knowledge

end CellGraph
