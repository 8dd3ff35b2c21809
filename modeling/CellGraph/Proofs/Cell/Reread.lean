import CellGraph.Cell.Equality
import CellGraph.Proofs.Cell.Alike
import CellGraph.Proofs.Cell.Sound
import CellGraph.Proofs.Computation.Run

/-!
# A cell as it is read again

Written and read again, a cell holds what was written inline, and everything else is named by its
digest only. The two forms have one encoding, and count as equal.

* `Link.Reread`, `Cell.Reread`: the form in which a cell is read again;
* `Cell.Reread.encode_eq`: it has the same encoding;
* `Cell.Reread.equal`: it is equal to the cell, whatever is known.
-/

namespace CellGraph

/--
The second link is the first one as it is read again: direct where `inline` gives the target of the
first, and a soft link to its digest elsewhere.
-/
inductive Link.Reread (inline : Link → Option Cell) : Link → Link → Prop
  | direct {link : Link} {old new label : Label} {pairs : Value (Link × Link)}
      (hinline : inline link = some (.mk old (pairs.mapLinks Prod.fst)))
      (hpairs : ∀ pair ∈ pairs.links, Link.Reread inline pair.1 pair.2) :
      Link.Reread inline link (.direct label (.mk new (pairs.mapLinks Prod.snd)))
  | soft {link : Link} {label : Label} (hinline : inline link = none) :
      Link.Reread inline link (.soft label link.digest)

/-- The second cell is the first one as it is read again. -/
def Cell.Reread (inline : Link → Option Cell) (cell cell' : Cell) : Prop :=
  cell.value.Alike (Link.Reread inline) cell'.value

theorem Link.Reread.of_target {inline : Link → Option Cell} {link : Link} {target target' : Cell}
    {label : Label} (hinline : inline link = some target) (h : target.Reread inline target') :
    link.Reread inline (.direct label target') := by
  obtain ⟨old, value⟩ := target
  obtain ⟨new, value'⟩ := target'
  obtain ⟨pairs, hvalue, hvalue', hpairs⟩ := h
  cases hvalue
  cases hvalue'
  exact .direct hinline hpairs

/-- A form read again holds no more than what is inline. -/
theorem Link.Reread.target {inline : Link → Option Cell} {link link' : Link} {target' : Cell}
    (h : link.Reread inline link') (ht : link'.target? = some target') :
    ∃ target, inline link = some target ∧ target.Reread inline target' := by
  cases h with
  | direct hinline hpairs =>
    cases ht
    exact ⟨_, hinline, _, rfl, rfl, hpairs⟩
  | soft => cases ht

/-! ### One encoding -/

theorem Cell.encode_eq_of_alike {R : Link → Link → Prop} {cell cell' : Cell}
    (h : cell.value.Alike R cell'.value)
    (hR : ∀ link link', R link link' → link'.written = link.written) :
    cell'.encode = cell.encode := by
  have hvalue : cell.value.mapLinks Link.written = cell'.value.mapLinks Link.written :=
    h.mapLinks_eq fun link link' hlink => (hR link link' hlink).symm
  rw [Cell.encode_eq, Cell.encode_eq, h.kind_eq, hvalue]

theorem Link.written_of_not_inline {link : Link} (h : link.inline? = none) :
    link.written = link.digest.written := by
  cases link with
  | soft label digest => rfl
  | direct label target =>
    have hlarge : ¬target.encode.length ≤ maxEmbedded := by
      rw [← Cell.isSmall_iff]
      intro hsmall
      simp [Link.inline?, hsmall] at h
    rw [Link.written, writtenChild, if_neg hlarge]
    rfl

theorem Link.Reread.written_eq {link link' : Link} (h : link.Reread Link.inline? link') :
    link'.written = link.written := by
  induction h with
  | soft hinline => exact (Link.written_of_not_inline hinline).symm
  | @direct link old new label pairs hinline hpairs ih =>
    obtain ⟨hwritten, hsmall⟩ := Link.written_of_inline hinline
    have hencode : Cell.encode (.mk new (pairs.mapLinks Prod.snd)) =
        Cell.encode (.mk old (pairs.mapLinks Prod.fst)) := by
      rw [Cell.encode_mk, Cell.encode_mk, Value.mapLinks_mapLinks, Value.mapLinks_mapLinks]
      exact congrArg Value.write (Value.mapLinks_congr fun pair hp => ih pair hp)
    rw [hwritten, Link.written, writtenChild, hencode, if_pos hsmall]

/-- A cell that is read again has the same encoding. -/
theorem Cell.Reread.encode_eq {cell cell' : Cell} (h : cell.Reread Link.inline? cell') :
    cell'.encode = cell.encode :=
  Cell.encode_eq_of_alike h fun _ _ => Link.Reread.written_eq

theorem Link.Reread.digest_eq {link link' : Link} (h : link.Reread Link.inline? link') :
    link.digest = link'.digest := by
  cases link' with
  | soft label digest => cases h; rfl
  | direct label target' =>
    obtain ⟨target, hinline, htarget⟩ := h.target rfl
    cases link with
    | soft => cases hinline
    | direct label target =>
      cases Link.target?_of_inline hinline
      exact congrArg Digest.of htarget.encode_eq.symm

/-! ### Equality -/

/-- A comparison finds two cells or links equal, whatever is known. -/
def Calc.Agrees (test : Calc Bool) : Prop := ∀ known, (test.run known).1 = true

namespace Calc.Agrees

theorem pure_true : Agrees (pure true) := fun _ => rfl

theorem both {first second : Calc Bool} (hfirst : Agrees first) (hsecond : Agrees second) :
    Agrees (Calc.both first second) := by
  intro known
  rw [Calc.both, run_bind, hfirst known, if_pos rfl]
  exact hsecond _

theorem all {pairs : List (Link.Test × Link)} (h : ∀ pair ∈ pairs, Agrees (pair.1 pair.2)) :
    Agrees (Link.Test.all (pairs.map Prod.fst) (pairs.map Prod.snd)) := by
  induction pairs with
  | nil => exact pure_true
  | cons pair rest ih =>
    have hrest := ih fun pair hp => h pair (List.mem_cons_of_mem _ hp)
    exact (h pair (List.mem_cons_self ..)).both hrest

theorem allEntries {pairs : List ((Link.Test × Link) × (Link.Test × Link))}
    (h : ∀ pair ∈ pairs, Agrees (pair.1.1 pair.1.2) ∧ Agrees (pair.2.1 pair.2.2)) :
    Agrees (Link.Test.allEntries (pairs.map fun pair => (pair.1.1, pair.2.1))
      (pairs.map fun pair => (pair.1.2, pair.2.2))) := by
  induction pairs with
  | nil => exact pure_true
  | cons pair rest ih =>
    obtain ⟨hkey, hvalue⟩ := h pair (List.mem_cons_self ..)
    exact (hkey.both hvalue).both (ih fun pair hp => h pair (List.mem_cons_of_mem _ hp))

theorem option {pair : Option (Link.Test × Link)} (h : ∀ p ∈ pair, Agrees (p.1 p.2)) :
    Agrees (Link.Test.option (pair.map Prod.fst) (pair.map Prod.snd)) := by
  cases pair with
  | none => exact pure_true
  | some pair => exact h pair rfl

/-- Values agree if their links do, place by place. -/
theorem value {pairs : Value (Link.Test × Link)}
    (h : ∀ pair ∈ pairs.links, Agrees (pair.1 pair.2)) :
    Agrees ((pairs.mapLinks Prod.fst).agree (pairs.mapLinks Prod.snd)) := by
  cases pairs with
  | vector items =>
    simp only [Value.mapLinks, Value.agree, List.length_map]
    exact all h
  | map entries =>
    simp only [Value.mapLinks, Value.agree, List.length_map]
    exact allEntries fun pair hp =>
      ⟨h pair.1 (List.mem_flatMap.2 ⟨pair, hp, by simp⟩),
        h pair.2 (List.mem_flatMap.2 ⟨pair, hp, by simp⟩)⟩
  | peer record =>
    simp only [Value.mapLinks, Value.agree, StakeRecord.mapLinks, StakeRecord.agree, and_self,
      if_true]
    exact (option fun p hp => h p (by simp_all [Value.links, StakeRecord.links])).both
      (option fun p hp => h p (by simp_all [Value.links, StakeRecord.links]))
  | _ =>
    simp only [Value.mapLinks, Value.agree, decide_true]
    exact pure_true

end Calc.Agrees

theorem Cell.agrees_of_alike {cell other : Cell}
    (h : other.value.Alike (fun link link' => Calc.Agrees (link'.equal link)) cell.value)
    (hencode : cell.encode = other.encode) : Calc.Agrees (cell.equal other) := by
  obtain ⟨label, value⟩ := cell
  obtain ⟨pairs, hother, hvalue, hpairs⟩ := h
  intro known
  rw [Cell.equal_mk, Cell.equalBy]
  by_cases hsame : (Cell.mk label value).same other
  · rw [if_pos hsame]
    rfl
  · rw [if_neg hsame, run_bind, run_get]
    dsimp only
    split
    · next a b ha hb =>
      -- Both digests are known, and are those of one encoding.
      simp only [Knowledge.hash?, Option.ite_none_right_eq_some, Option.some.injEq] at ha hb
      rw [← ha.2, ← hb.2, Cell.digest, Cell.digest, hencode, decide_eq_true rfl]
      rfl
    · -- The children are compared in pairs, as the two values were put together.
      have htests : value.mapLinks Link.equal =
          (pairs.mapLinks fun pair => (pair.2.equal, pair.1)).mapLinks Prod.fst := by
        rw [show value = _ from hvalue, Value.mapLinks_mapLinks, Value.mapLinks_mapLinks]
      have hlinks : other.value =
          (pairs.mapLinks fun pair => (pair.2.equal, pair.1)).mapLinks Prod.snd := by
        rw [hother, Value.mapLinks_mapLinks]
      rw [htests, hlinks]
      refine Calc.Agrees.value (fun pair hp => ?_) known
      rw [Value.links_mapLinks] at hp
      obtain ⟨both, hboth, rfl⟩ := List.mem_map.1 hp
      exact hpairs both hboth

/-- A direct link to a small cell equals a link whose small target equals that cell. -/
theorem Link.agrees_direct {link : Link} {label : Label} {target target' : Cell}
    (hinline : link.inline? = some target) (hsmall : target'.isSmall)
    (h : Calc.Agrees (target'.equal target)) :
    Calc.Agrees ((Link.direct label target').equal link) := by
  intro known
  cases link with
  | soft => cases hinline
  | direct other held =>
    have hheld : held.isSmall = true ∧ held = target := by simpa [inline?] using hinline
    obtain ⟨hheldSmall, rfl⟩ := hheld
    rw [equal, equalDirect]
    by_cases hlabel : label = (Link.direct other held).label
    · rw [if_pos hlabel]
      rfl
    · rw [if_neg hlabel]
      simp only [Cell.embeds, run_bind, run_pure, hsmall, hheldSmall, and_self, if_true]
      exact h _

/-- A soft link equals a link with its digest that is not written inline. -/
theorem Link.agrees_soft {link : Link} {label : Label} (hinline : link.inline? = none) :
    Calc.Agrees ((Link.soft label link.digest).equal link) := by
  intro known
  by_cases hlabel : label = link.label
  · simp only [equal, equalSoft, if_pos hlabel, run_pure]
  · cases link with
    | soft other digest =>
      simp only [equal, equalSoft, if_neg hlabel, run_pure, Link.digest, decide_true]
    | direct other held =>
      have hlarge : held.isSmall = false := by simpa [inline?] using hinline
      simp only [equal, equalSoft, if_neg hlabel, Cell.embeds, run_bind, run_pure, hlarge,
        Bool.false_eq_true, if_false, Link.digest]
      exact decide_eq_true (held.fst_hash _).symm

/-- A link that was read again is equal to the original one, whatever is known. -/
theorem Link.Reread.agrees {link link' : Link} (h : link.Reread Link.inline? link') :
    Calc.Agrees (link'.equal link) := by
  induction h with
  | soft hinline => exact Link.agrees_soft hinline
  | @direct link old new label pairs hinline hpairs ih =>
    have hreread : Cell.Reread Link.inline? (.mk old (pairs.mapLinks Prod.fst))
        (.mk new (pairs.mapLinks Prod.snd)) := ⟨pairs, rfl, rfl, hpairs⟩
    have hencode := hreread.encode_eq
    refine Link.agrees_direct hinline ?_ (Cell.agrees_of_alike ⟨pairs, rfl, rfl, ih⟩ hencode)
    rw [Cell.isSmall_iff, hencode]
    exact (Link.written_of_inline hinline).2

/-- A cell that was read again is equal to the original one, whatever is known. -/
theorem Cell.Reread.agrees {cell cell' : Cell} (h : cell.Reread Link.inline? cell') :
    Calc.Agrees (cell'.equal cell) :=
  Cell.agrees_of_alike (h.mono fun _ _ _ => Link.Reread.agrees) h.encode_eq

end CellGraph
