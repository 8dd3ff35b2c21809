import CellGraph.Proofs.Cell.Ascending
import CellGraph.Proofs.Computation.Ends
import CellGraph.Stake.Holdings
import CellGraph.Stake.Validity
import Mathlib.Data.List.Perm.Basic
import Mathlib.Data.Set.Function

/-!
# Tables of delegators

The map of a record's delegators binds addresses to numbers of shares. As long as it holds all its
keys and values itself, it is a table of delegators and their shares, and changes as the table does.

* `Delegations`: a table of delegators, in the order of their addresses' digests;
* `Delegations.set`, `Delegations.shares`, `Delegations.total`: changing and adding up;
* `Delegations.Listed`: the entries of a map that hold a table;
* `Delegations.Listed.insert`, `Delegations.Listed.erase`, `Delegations.Listed.sumOfStakes`: what
  is done to the entries is done to the table.
-/

namespace CellGraph

/-! ### Values of an index -/

namespace Index

variable {κ α β : Type}

/-- Change every value. -/
def mapValues (f : α → β) (index : Index κ α) : Index κ β := index.map fun row => (row.1, f row.2)

variable [BEq κ]

theorem find?_mapValues (f : α → β) (key : κ) (index : Index κ α) :
    (index.mapValues f).find? key = (index.find? key).map f := by
  induction index with
  | nil => rfl
  | cons row rest ih =>
    simp only [mapValues, List.map_cons, find?] at ih ⊢
    split
    · rfl
    · exact ih

theorem mapValues_erase (f : α → β) (key : κ) (index : Index κ α) :
    (index.erase key).mapValues f = (index.mapValues f).erase key := by
  induction index with
  | nil => rfl
  | cons row rest ih =>
    simp only [mapValues, List.map_cons, erase] at ih ⊢
    split
    · rfl
    · rw [List.map_cons, ih]

theorem mapValues_insert [LT κ] [DecidableLT κ] (f : α → β) (key : κ) (value : α)
    (index : Index κ α) :
    (index.insert key value).mapValues f = (index.mapValues f).insert key (f value) := by
  induction index with
  | nil => rfl
  | cons row rest ih =>
    simp only [mapValues, List.map_cons, insert] at ih ⊢
    split
    · rfl
    · split
      · rfl
      · rw [List.map_cons, ih]

theorem mem_of_mem_erase {key : κ} {row : κ × α} {index : Index κ α}
    (h : row ∈ index.erase key) : row ∈ index := by
  induction index with
  | nil => cases h
  | cons first rest ih =>
    simp only [erase] at h
    split at h
    · exact List.mem_cons_of_mem _ h
    · rcases List.mem_cons.1 h with rfl | h
      · exact List.mem_cons_self ..
      · exact List.mem_cons_of_mem _ (ih h)

theorem mem_insert [LT κ] [DecidableLT κ] {key : κ} {value : α} {row : κ × α} {index : Index κ α}
    (h : row ∈ index.insert key value) : row = (key, value) ∨ row ∈ index := by
  induction index with
  | nil => exact .inl (List.mem_singleton.1 h)
  | cons first rest ih =>
    simp only [insert] at h
    split at h
    · exact List.mem_cons.1 h
    · split at h
      · exact (List.mem_cons.1 h).imp_right (List.mem_cons_of_mem _)
      · rcases List.mem_cons.1 h with rfl | h
        · exact .inr (List.mem_cons_self ..)
        · exact (ih h).imp_right (List.mem_cons_of_mem _)

end Index

/-! ### Cells and links by what they hold -/

/-- A cell is written as its value is. -/
theorem Cell.encode_of_value {cell : Cell} {value : Value Link} (h : cell.value = value) :
    cell.encode = (value.mapLinks Link.written).write := by
  cases cell with
  | mk label value' =>
    cases h
    exact Cell.encode_mk label value'

/-- A link that was made with its target is written as the target is. -/
theorem Link.written_of_target {link : Link} {target : Cell} (h : link.target? = some target) :
    link.written = writtenChild target.encode := by
  cases link with
  | soft => cases h
  | direct label target' =>
    cases h
    rfl

theorem Link.digest_of_target {link : Link} {target : Cell} (h : link.target? = some target) :
    link.digest = target.digest := by
  cases link with
  | soft => cases h
  | direct label target' =>
    cases h
    rfl

/-! ### Tables -/

/-- The delegators of a peer and their shares, by the digests of their addresses. -/
abbrev Delegations := Index Digest (Address × Int64)

namespace Delegations

/-- The shares of an address, zero if it is no delegator. -/
def shares (table : Delegations) (delegator : Address) : Int64 :=
  ((table.find? delegator.digest).map Prod.snd).getD 0

/-- The shares of all delegators together. -/
def total (table : Delegations) : Int := (table.map fun row => row.2.2.toInt).sum

/--
The table in which an address has this many shares. With none it is no delegator; with those that it
has already the table stays as it is.
-/
def set (table : Delegations) (delegator : Address) (shares : Int64) : Delegations :=
  if table.shares delegator = shares then table
  else if shares = 0 then table.erase delegator.digest
  else table.insert delegator.digest (delegator, shares)

/-- The delegator and the shares of an entry that holds both. -/
def row? (entry : Entry) : Option (Address × Int64) :=
  match entry.1.target?.map Cell.value, entry.2.target?.map Cell.value with
  | some (.address delegator), some (.integer shares) => some (delegator, shares)
  | _, _ => none

/-- The entries of a map hold this table, and each of its delegators has shares. -/
structure Listed (entries : List Entry) (table : Delegations) : Prop where
  ascending : Entry.Ascending entries
  rows : (Entry.index entries).mapValues row? = table.mapValues some
  positive : ∀ row ∈ table, 0 < row.2.2

theorem row?_eq_some {entry : Entry} {delegator : Address} {shares : Int64}
    (h : row? entry = some (delegator, shares)) :
    ∃ key amount : Cell, entry.1.target? = some key ∧ key.value = .address delegator ∧
      entry.2.target? = some amount ∧ amount.value = .integer shares := by
  unfold row? at h
  split at h
  · next hkey hamount =>
    cases h
    obtain ⟨key, hkey, hkeyValue⟩ := Option.map_eq_some_iff.1 hkey
    obtain ⟨amount, hamount, hamountValue⟩ := Option.map_eq_some_iff.1 hamount
    exact ⟨key, amount, hkey, hkeyValue, hamount, hamountValue⟩
  · cases h

theorem row?_of_targets {entry : Entry} {key amount : Cell} {delegator : Address}
    {shares : Int64} (hkey : entry.1.target? = some key) (haddress : key.value = .address delegator)
    (hamount : entry.2.target? = some amount) (hshares : amount.value = .integer shares) :
    row? entry = some (delegator, shares) := by
  simp [row?, hkey, haddress, hamount, hshares]

/-- A cell with an address has the digest of the address. -/
theorem digest_of_address {cell : Cell} {a : Address} (h : cell.value = .address a) :
    cell.digest = a.digest :=
  congrArg Digest.of (Cell.encode_of_value h)

/-- An entry with a delegator is found by the digest of its address. -/
theorem digest_of_row? {entry : Entry} {delegator : Address} {shares : Int64}
    (h : row? entry = some (delegator, shares)) : entry.1.digest = delegator.digest := by
  obtain ⟨key, -, hkey, haddress, -⟩ := row?_eq_some h
  rw [← digest_of_address haddress, Link.digest_of_target hkey]

/-! ### Adding up -/

variable {table : Delegations}

@[simp] theorem total_nil : total [] = 0 := rfl

@[simp] theorem total_cons (row : Digest × (Address × Int64)) (rest : Delegations) :
    total (row :: rest) = row.2.2.toInt + total rest := by
  simp [total]

theorem shares_nil (delegator : Address) : shares [] delegator = 0 := rfl

theorem shares_cons (row : Digest × (Address × Int64)) (rest : Delegations) (delegator : Address) :
    shares (row :: rest) delegator =
      if row.1 = delegator.digest then row.2.2 else shares rest delegator := by
  simp only [shares, Index.find?, beq_iff_eq]
  split <;> rfl

/-- Where every key is greater, an address has no shares. -/
theorem shares_eq_zero {delegator : Address} (h : ∀ row ∈ table, row.1 ≠ delegator.digest) :
    shares table delegator = 0 := by
  induction table with
  | nil => rfl
  | cons row rest ih =>
    rw [shares_cons, if_neg (h row (List.mem_cons_self ..))]
    exact ih fun other hother => h other (List.mem_cons_of_mem _ hother)

theorem total_erase (table : Delegations) (delegator : Address) :
    total (table.erase delegator.digest) = total table - (shares table delegator).toInt := by
  induction table with
  | nil => rfl
  | cons row rest ih =>
    simp only [Index.erase, shares_cons, beq_iff_eq]
    split
    · rw [total_cons]
      omega
    · rw [show (row.1, row.2) = row from rfl, total_cons, total_cons, ih]
      omega

theorem total_insert (h : table.Pairwise fun a b => a.1 < b.1) (delegator : Address) (n : Int64) :
    total (table.insert delegator.digest (delegator, n)) =
      total table - (shares table delegator).toInt + n.toInt := by
  induction table with
  | nil => simp [Index.insert, shares_nil]
  | cons row rest ih =>
    obtain ⟨hrow, hrest⟩ := List.pairwise_cons.1 h
    simp only [Index.insert, beq_iff_eq]
    split
    · next hlt =>
      -- All other keys are greater still.
      have hne : ∀ other ∈ row :: rest, other.1 ≠ delegator.digest := by
        intro other hother heq
        have hless : delegator.digest < other.1 := by
          rcases List.mem_cons.1 hother with rfl | hother
          · exact hlt
          · exact Digest.lt_trans hlt (hrow other hother)
        exact absurd (heq ▸ hless) (List.lt_irrefl _)
      rw [shares_eq_zero hne, total_cons]
      simp
      omega
    · split
      · next heq =>
        rw [shares_cons, if_pos heq.symm, total_cons, total_cons]
        simp
        omega
      · next hne =>
        rw [show (row.1, row.2) = row from rfl, total_cons, ih hrest, shares_cons,
          if_neg (Ne.symm hne), total_cons]
        omega

theorem total_set (h : table.Pairwise fun a b => a.1 < b.1) (delegator : Address) (n : Int64) :
    total (table.set delegator n) = total table - (shares table delegator).toInt + n.toInt := by
  unfold set
  split
  · next hsame =>
    rw [hsame]
    omega
  · split
    · next hzero =>
      rw [total_erase, hzero]
      simp
    · exact total_insert h delegator n

theorem total_nonneg (h : ∀ row ∈ table, 0 < row.2.2) : 0 ≤ total table := by
  induction table with
  | nil => rfl
  | cons row rest ih =>
    have hrow := Int64.lt_iff_toInt_lt.1 (h row (List.mem_cons_self ..))
    have hrest := ih fun other hother => h other (List.mem_cons_of_mem _ hother)
    simp only [total_cons, Int64.toInt_zero] at hrow ⊢
    omega

/-- The shares of one delegator are some of all shares, and not negative. -/
theorem shares_le_total (h : ∀ row ∈ table, 0 < row.2.2) (delegator : Address) :
    0 ≤ (shares table delegator).toInt ∧ (shares table delegator).toInt ≤ total table := by
  induction table with
  | nil => simp [shares_nil]
  | cons row rest ih =>
    have hrow := Int64.lt_iff_toInt_lt.1 (h row (List.mem_cons_self ..))
    have hpositive : ∀ other ∈ rest, 0 < other.2.2 :=
      fun other hother => h other (List.mem_cons_of_mem _ hother)
    have hrest := total_nonneg hpositive
    obtain ⟨hlow, hhigh⟩ := ih hpositive
    rw [shares_cons, total_cons]
    simp only [Int64.toInt_zero] at hrow
    split <;> omega

/-! ### Entries that hold a table -/

namespace Listed

variable {entries : List Entry}

theorem nil : Listed [] [] := ⟨List.Pairwise.nil, rfl, nofun⟩

/-- Entries and rows come in pairs. -/
@[elab_as_elim]
theorem induct {motive : ∀ entries table, Listed entries table → Prop} (nil : motive [] [] nil)
    (cons : ∀ entry row entries table, row.1 = entry.1.digest → row? entry = some row.2 →
      0 < row.2.2 → ∀ (h : Listed entries table) (hall : Listed (entry :: entries) (row :: table)),
        motive entries table h → motive (entry :: entries) (row :: table) hall) :
    ∀ {entries : List Entry} {table : Delegations} (h : Listed entries table),
      motive entries table h
  | [], [], _ => nil
  | [], row :: table, h => by cases h.rows
  | entry :: entries, [], h => by cases h.rows
  | entry :: entries, row :: table, h => by
    obtain ⟨hascending, hrows, hpositive⟩ := id h
    simp only [Entry.index, Index.mapValues, List.map_cons, List.cons.injEq, Prod.mk.injEq] at hrows
    have hrest : Listed entries table := ⟨(List.pairwise_cons.1 hascending).2, hrows.2,
      fun other hother => hpositive other (List.mem_cons_of_mem _ hother)⟩
    exact cons entry row entries table hrows.1.1.symm hrows.1.2
      (hpositive row (List.mem_cons_self ..)) hrest h (induct nil cons hrest)

theorem eq_nil_iff (h : Listed entries table) : entries = [] ↔ table = [] := by
  have hlength := congrArg List.length h.rows
  simp only [Entry.index, Index.mapValues, List.length_map] at hlength
  rw [← List.length_eq_zero_iff, hlength, List.length_eq_zero_iff]

/-- A row is filed under the digest of its address. -/
theorem key (h : Listed entries table) : ∀ row ∈ table, row.1 = row.2.1.digest := by
  induction h using induct with
  | nil => nofun
  | cons entry row entries table hkey hentry _ _ _ ih =>
    rintro other (_ | ⟨_, hother⟩)
    · rw [hkey, digest_of_row? hentry]
    · exact ih other hother

theorem keys_eq (h : Listed entries table) :
    entries.map (fun entry => entry.1.digest) = table.map Prod.fst := by
  induction h using induct with
  | nil => rfl
  | cons entry row entries table hkey _ _ _ _ ih => rw [List.map_cons, List.map_cons, ih, hkey]

theorem pairwise (h : Listed entries table) : table.Pairwise fun a b => a.1 < b.1 := by
  have hkeys : (entries.map fun entry => entry.1.digest).Pairwise (· < ·) :=
    List.pairwise_map.2 h.ascending
  rw [h.keys_eq] at hkeys
  exact List.pairwise_map.1 hkeys

/-- Looking up a key in the map is looking it up in the table. -/
theorem find? (h : Listed entries table) (digest : Digest) :
    (Entry.find? digest entries).map row? = (table.find? digest).map some := by
  rw [← Entry.find?_index, ← Index.find?_mapValues, ← Index.find?_mapValues, h.rows]

theorem erase (h : Listed entries table) (delegator : Address) :
    Listed (Entry.erase delegator.digest entries) (table.erase delegator.digest) := by
  refine ⟨Entry.ascending_erase h.ascending, ?_, fun row hrow => h.positive row ?_⟩
  · rw [Entry.index_erase, Index.mapValues_erase, Index.mapValues_erase, h.rows]
  · exact Index.mem_of_mem_erase hrow

theorem insert (h : Listed entries table) {entry : Entry} {delegator : Address} {n : Int64}
    (hentry : row? entry = some (delegator, n)) (hn : 0 < n) :
    Listed (Entry.insert entry.1.digest entry entries)
      (table.insert delegator.digest (delegator, n)) := by
  refine ⟨Entry.ascending_insert h.ascending, ?_, fun row hrow => ?_⟩
  · rw [Entry.index_insert, Index.mapValues_insert, Index.mapValues_insert, h.rows, hentry,
      digest_of_row? hentry]
  · rcases Index.mem_insert hrow with rfl | hrow
    · exact hn
    · exact h.positive row hrow

/-- The scan of the entries finds the shares of all delegators together. -/
theorem sumOfStakes (h : Listed entries table) {resident : Link → Option Cell}
    (hresident : ∀ link target, link.target? = some target → resident link = some target)
    (sum : Int) :
    StakeRecord.sumOfStakes resident sum entries = .ok (some (sum + table.total)) := by
  induction h using induct generalizing sum with
  | nil => simp [StakeRecord.sumOfStakes]
  | cons entry row entries table _ hentry hpositive _ _ ih =>
    obtain ⟨key, amount, hkey, haddress, hamount, hshares⟩ := row?_eq_some hentry
    have hn := Int64.lt_iff_toInt_lt.1 hpositive
    rw [StakeRecord.sumOfStakes, hresident _ _ hkey, hresident _ _ hamount, total_cons]
    simp only [Int64.toInt_zero] at hn
    simp [StakeRecord.isAddress, haddress, hshares, hn, ih, Int.add_assoc]

/-- The entries are written as the table says. -/
theorem written (h : Listed entries table) :
    entries.map (fun entry => (entry.1.written, entry.2.written)) =
      table.map fun row =>
        (writtenChild (Value.write (.address row.2.1)),
          writtenChild (Value.write (.integer row.2.2))) := by
  induction h using induct with
  | nil => rfl
  | cons entry row entries table _ hentry _ _ _ ih =>
    obtain ⟨key, amount, hkey, haddress, hamount, hshares⟩ := row?_eq_some hentry
    rw [List.map_cons, List.map_cons, ih, Link.written_of_target hkey,
      Link.written_of_target hamount, Cell.encode_of_value haddress, Cell.encode_of_value hshares]
    rfl

end Listed

/-- The delegators of a record, all of them held: there is no map, or a map that is not empty. -/
inductive HeldBy : Option Link → Delegations → Prop
  | absent : HeldBy none []
  | map {link : Link} {map : Cell} {entries : List Entry} {table : Delegations}
      (htarget : link.target? = some map) (hvalue : map.value = .map entries)
      (hlisted : Listed entries table) (hsome : table ≠ []) : HeldBy (some link) table

/-- Maps that hold one table are written alike. -/
theorem HeldBy.written_eq {stakes stakes' : Option Link} (h : HeldBy stakes table)
    (h' : HeldBy stakes' table) : stakes.map Link.written = stakes'.map Link.written := by
  cases h with
  | absent =>
    cases h' with
    | absent => rfl
    | map _ _ _ hsome => exact absurd rfl hsome
  | map htarget hvalue hlisted hsome =>
    cases h' with
    | absent => exact absurd rfl hsome
    | map htarget' hvalue' hlisted' _ =>
      rw [Option.map_some, Option.map_some, Link.written_of_target htarget,
        Link.written_of_target htarget', Cell.encode_of_value hvalue,
        Cell.encode_of_value hvalue', Value.mapLinks, Value.mapLinks, hlisted.written,
        hlisted'.written]

/-! ### Tables and the shares in them -/

/-- The rows are in order, each under its address, and each of these has shares. -/
structure Sound (table : Delegations) : Prop where
  pairwise : table.Pairwise fun a b => a.1 < b.1
  key : ∀ row ∈ table, row.1 = row.2.1.digest
  positive : ∀ row ∈ table, 0 < row.2.2

theorem Listed.sound {entries : List Entry} (h : Listed entries table) : table.Sound :=
  ⟨h.pairwise, h.key, h.positive⟩

theorem HeldBy.sound {stakes : Option Link} (h : HeldBy stakes table) : table.Sound := by
  cases h with
  | absent => exact ⟨List.Pairwise.nil, nofun, nofun⟩
  | map _ _ hlisted _ => exact hlisted.sound

theorem shares_erase_self (h : table.Pairwise fun a b => a.1 < b.1) (delegator : Address) :
    shares (table.erase delegator.digest) delegator = 0 := by
  induction table with
  | nil => rfl
  | cons row rest ih =>
    obtain ⟨hrow, hrest⟩ := List.pairwise_cons.1 h
    simp only [Index.erase, beq_iff_eq]
    split
    · next heq =>
      refine shares_eq_zero fun other hother hsame => ?_
      exact absurd (heq.trans hsame.symm ▸ hrow other hother) (List.lt_irrefl _)
    · next hne =>
      rw [shares_cons, if_neg hne]
      exact ih hrest

/-- Setting the shares of one address leaves those of every other one alone. -/
theorem shares_set (h : table.Pairwise fun a b => a.1 < b.1) (delegator other : Address)
    (n : Int64) :
    shares (table.set delegator n) other =
      if delegator.digest = other.digest then n else shares table other := by
  unfold set
  split
  · next hold =>
    split
    · next hsame => rw [← hold, shares, shares, hsame]
    · rfl
  · split
    · next hzero =>
      split
      · next hsame => rw [hzero, ← shares_erase_self h delegator, shares, shares, hsame]
      · next hne => rw [shares, shares, Index.find?_erase_of_ne hne]
    · rw [shares, Index.find?_insert]
      simp only [beq_iff_eq]
      split <;> rfl

/-- Setting shares leaves no other rows but those that were there. -/
theorem mem_set {delegator : Address} {n : Int64} {row : Digest × (Address × Int64)}
    (h : row ∈ table.set delegator n) : row = (delegator.digest, (delegator, n)) ∨ row ∈ table := by
  unfold set at h
  split at h
  · exact .inr h
  · split at h
    · exact .inr (Index.mem_of_mem_erase h)
    · exact Index.mem_insert h

/-- What an address holds is on its row. -/
theorem shares_of_mem (h : table.Sound) {row : Digest × (Address × Int64)} (hrow : row ∈ table) :
    shares table row.2.1 = row.2.2 := by
  obtain ⟨hpairwise, hkey, hpositive⟩ := h
  induction table with
  | nil => cases hrow
  | cons first rest ih =>
    obtain ⟨hfirst, hrest⟩ := List.pairwise_cons.1 hpairwise
    rw [shares_cons]
    rcases List.mem_cons.1 hrow with rfl | hmem
    · rw [if_pos (hkey _ (List.mem_cons_self ..))]
    · have hlt := hfirst row hmem
      rw [hkey row hrow] at hlt
      rw [if_neg fun heq => absurd (heq ▸ hlt) (List.lt_irrefl _)]
      exact ih hmem hrest (fun r hr => hkey r (List.mem_cons_of_mem _ hr))
        fun r hr => hpositive r (List.mem_cons_of_mem _ hr)

/-- An address that holds shares has a row. -/
theorem exists_mem_of_shares {delegator : Address} (h : shares table delegator ≠ 0) :
    ∃ row ∈ table, row.1 = delegator.digest ∧ row.2.2 = shares table delegator := by
  induction table with
  | nil => exact absurd rfl h
  | cons first rest ih =>
    rw [shares_cons] at h ⊢
    split at h
    · next heq => exact ⟨first, List.mem_cons_self .., heq, (if_pos heq).symm⟩
    · next hne =>
      obtain ⟨row, hrow, hkey, hshares⟩ := ih h
      exact ⟨row, List.mem_cons_of_mem _ hrow, hkey, hshares.trans (if_neg hne).symm⟩

/-- The rows of a table are the addresses in use that hold shares. -/
theorem mem_iff (h : table.Sound) {used : Set Address} (hused : ∀ row ∈ table, row.2.1 ∈ used)
    (hinj : used.InjOn Address.digest) (row : Digest × (Address × Int64)) :
    row ∈ table ↔ row.1 = row.2.1.digest ∧ row.2.1 ∈ used ∧ row.2.2 = shares table row.2.1 ∧
      row.2.2 ≠ 0 := by
  constructor
  · intro hrow
    refine ⟨h.key row hrow, hused row hrow, (shares_of_mem h hrow).symm, fun hzero => ?_⟩
    exact absurd (hzero ▸ h.positive row hrow) (by decide)
  · rintro ⟨hkey, hmem, hshares, hne⟩
    obtain ⟨row', hrow', hkey', hshares'⟩ := exists_mem_of_shares (hshares ▸ hne)
    have haddress : row'.2.1 = row.2.1 :=
      hinj (hused row' hrow') hmem ((h.key row' hrow').symm.trans hkey')
    have heq : row' = row :=
      Prod.ext (hkey'.trans hkey.symm) (Prod.ext haddress (hshares'.trans hshares.symm))
    exact heq ▸ hrow'

theorem Sound.nodup (h : table.Sound) : table.Nodup :=
  h.pairwise.imp fun hlt heq => absurd (heq ▸ hlt) (List.lt_irrefl _)

/-- A table is determined by what each address holds. -/
theorem eq_of_shares {table' : Delegations} (h : table.Sound) (h' : table'.Sound)
    {used : Set Address} (hinj : used.InjOn Address.digest)
    (hused : ∀ row ∈ table, row.2.1 ∈ used) (hused' : ∀ row ∈ table', row.2.1 ∈ used)
    (hshares : ∀ a ∈ used, shares table a = shares table' a) : table = table' := by
  have hmem : ∀ row, row ∈ table ↔ row ∈ table' := by
    intro row
    rw [mem_iff h hused hinj, mem_iff h' hused' hinj]
    refine and_congr_right fun _ => and_congr_right fun ha => ?_
    rw [hshares _ ha]
  refine ((List.perm_ext_iff_of_nodup h.nodup h'.nodup).2 hmem).eq_of_pairwise ?_ h.pairwise
    h'.pairwise
  intro a b _ _ hab hba
  exact absurd (Digest.lt_trans hab hba) (List.lt_irrefl _)

/-- All shares together are those of the addresses that hold some, in any order. -/
theorem total_eq_sum (h : table.Sound) {used : Set Address} (hinj : used.InjOn Address.digest)
    (hused : ∀ row ∈ table, row.2.1 ∈ used) {order : List Address} (hnodup : order.Nodup)
    (horder : ∀ a, a ∈ order ↔ a ∈ used ∧ shares table a ≠ 0) :
    total table = (order.map fun a => (shares table a).toInt).sum := by
  have haddresses : (table.map fun row => row.2.1).Nodup := by
    refine List.pairwise_map.2 (h.pairwise.imp_of_mem fun {a b} ha hb hlt heq => ?_)
    rw [h.key a ha, h.key b hb, heq] at hlt
    exact absurd hlt (List.lt_irrefl _)
  have hperm : (table.map fun row => row.2.1).Perm order := by
    refine (List.perm_ext_iff_of_nodup haddresses hnodup).2 fun a => ?_
    rw [horder, List.mem_map]
    constructor
    · rintro ⟨row, hrow, rfl⟩
      obtain ⟨-, hmem, hshares, hne⟩ := (mem_iff h hused hinj row).1 hrow
      exact ⟨hmem, hshares ▸ hne⟩
    · rintro ⟨hmem, hne⟩
      obtain ⟨row, hrow, hkey, -⟩ := exists_mem_of_shares hne
      exact ⟨row, hrow, hinj (hused row hrow) hmem ((h.key row hrow).symm.trans hkey)⟩
  rw [← (hperm.map _).sum_eq, List.map_map]
  refine congrArg List.sum (List.map_congr_left fun row hrow => ?_)
  rw [Function.comp_apply, shares_of_mem h hrow]

end Delegations

end CellGraph
