import CellGraph.Cell.Equality
import CellGraph.Proofs.Knowledge.Law

/-!
# Comparing only notes

Comparing two cells may work out encodings and digests, and changes nothing else of what is known.

* `Calc.OnlyNotes.agree`: comparing values, if comparing their links only notes;
* `Cell.onlyNotes_equal`: comparing cells.
-/

namespace CellGraph

namespace Calc.OnlyNotes

theorem both {first second : Calc Bool} (hfirst : OnlyNotes first) (hsecond : OnlyNotes second) :
    OnlyNotes (Calc.both first second) := by
  refine hfirst.bind fun agree => ?_
  cases agree with
  | true => exact hsecond
  | false => exact .pure _

theorem all {tests : List Link.Test} {links : List Link}
    (h : ∀ test ∈ tests, ∀ link, OnlyNotes (test link)) :
    OnlyNotes (Link.Test.all tests links) := by
  induction tests generalizing links with
  | nil => exact .pure _
  | cons test tests ih =>
    cases links with
    | nil => exact .pure _
    | cons link links =>
      exact .both (h test (List.mem_cons_self ..) link)
        (ih fun other hother => h other (List.mem_cons_of_mem _ hother))

theorem allEntries {tests : List (Link.Test × Link.Test)} {entries : List (Link × Link)}
    (h : ∀ test ∈ tests, ∀ link, OnlyNotes (test.1 link) ∧ OnlyNotes (test.2 link)) :
    OnlyNotes (Link.Test.allEntries tests entries) := by
  induction tests generalizing entries with
  | nil => exact .pure _
  | cons test tests ih =>
    cases entries with
    | nil => exact .pure _
    | cons entry entries =>
      have htest := h test (List.mem_cons_self ..)
      exact .both (.both (htest entry.1).1 (htest entry.2).2)
        (ih fun other hother => h other (List.mem_cons_of_mem _ hother))

theorem option {test : Option Link.Test} {link : Option Link}
    (h : ∀ t ∈ test, ∀ l, OnlyNotes (t l)) : OnlyNotes (Link.Test.option test link) := by
  cases test <;> cases link
  · exact .pure _
  · exact .pure _
  · exact .pure _
  · exact h _ rfl _

/-- Comparing values only notes something if comparing links does. -/
theorem agree {tests : Value Link.Test} {value : Value Link}
    (h : ∀ test ∈ tests.links, ∀ link, OnlyNotes (test link)) :
    OnlyNotes (tests.agree value) := by
  unfold Value.agree
  split
  case h_6 tests items =>
    split
    · exact all h
    · exact .pure _
  case h_7 tests entries =>
    split
    · refine allEntries fun test htest link => ⟨h _ ?_ link, h _ ?_ link⟩ <;>
      · exact List.mem_flatMap.2 ⟨test, htest, by simp⟩
    · exact .pure _
  case h_8 tests record =>
    unfold StakeRecord.agree
    split
    · exact .both (option fun t ht => h t (by simp_all [Value.links, StakeRecord.links]))
        (option fun t ht => h t (by simp_all [Value.links, StakeRecord.links]))
    · exact .pure _
  all_goals exact .pure _

end Calc.OnlyNotes

theorem Cell.onlyNotes_equal (cell other : Cell) : Calc.OnlyNotes (cell.equal other) := by
  induction cell using Cell.induct generalizing other with
  | step label value ih =>
    rw [equal_mk, equalBy]
    split
    · exact .pure _
    · refine Calc.OnlyNotes.get.bind fun known => ?_
      split
      · exact .pure _
      · refine Calc.OnlyNotes.agree fun test htest link' => ?_
        rw [Value.links_mapLinks] at htest
        obtain ⟨link, hlink, rfl⟩ := List.mem_map.1 htest
        cases link with
        | soft label digest =>
          show Calc.OnlyNotes (Link.equalSoft label digest link')
          unfold Link.equalSoft
          split
          · exact .pure _
          · cases link' with
            | soft => exact .pure _
            | direct _ target =>
              refine target.onlyNotes_embeds.bind fun small => ?_
              split
              · exact .pure _
              · exact target.onlyNotes_hash.bind fun _ => .pure _
        | direct label target =>
          show Calc.OnlyNotes (Link.equalDirect label target target.equal link')
          unfold Link.equalDirect
          split
          · exact .pure _
          · refine target.onlyNotes_embeds.bind fun small => ?_
            cases link' with
            | soft =>
              dsimp only
              split
              · exact .pure _
              · exact target.onlyNotes_hash.bind fun _ => .pure _
            | direct _ target' =>
              refine target'.onlyNotes_embeds.bind fun small' => ?_
              split
              · exact ih _ hlink target rfl target'
              · split
                · exact .pure _
                · exact target.onlyNotes_hash.bind fun _ =>
                    target'.onlyNotes_hash.bind fun _ => .pure _

theorem Cell.onlyNotes_equalOption (a b : Option Cell) : Calc.OnlyNotes (equalOption a b) := by
  cases a <;> cases b
  · exact .pure _
  · exact .pure _
  · exact .pure _
  · exact Cell.onlyNotes_equal _ _

end CellGraph
