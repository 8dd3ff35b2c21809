import CellGraph.Stake.Update

/-!
# Golden values

Fixed values with their encodings and digests. Whoever writes or reads the format can check against
them byte for byte.

* `Golden`, `Golden.all`: the values, with what is expected of them;
* `Golden.compute`, `Golden.verify`: what is found;
* `Golden.exportAll`: what is found for all of them, as a JSON text.
-/

namespace CellGraph

/-- A fixed value, and what it must be written as. -/
structure Golden where
  name : String
  description : String
  build : Attempt Cell
  /-- The expected encoding, in hexadecimal. -/
  encoding : String
  /-- The expected digest, in hexadecimal. -/
  digest : String

namespace Golden

/-- The fixed values. -/
def all : List Golden := [
  { name := "integer_zero"
    description := "integer 0"
    build := Cell.make (.integer 0)
    encoding := "1000"
    digest := "c7c646ace30f97d0f7fa790efbd7a59720b25fd9e4255233e1b41dc627e04c10" },
  { name := "integer_100"
    description := "integer 100, two-byte VLQ"
    build := Cell.make (.integer 100)
    encoding := "108064"
    digest := "151c7b83c9548f792f1a517ff5c8e85a5ffd12095db645550773109e3110a714" },
  { name := "integer_minus_one"
    description := "integer -1"
    build := Cell.make (.integer (-1))
    encoding := "107f"
    digest := "f8c153764ac37ea66b31edbaee85d9c7716f37df661db1755cd209ac0a204844" },
  { name := "integer_min"
    description := "integer i64::MIN, ten-byte VLQ"
    build := Cell.make (.integer Int64.minValue)
    encoding := "10ff808080808080808000"
    digest := "ab690d03b8db219c0bf3ee5cb5a0544fd9110325024f6f697ffebe4de31de870" },
  { name := "string_hello"
    description := "string \"hello\""
    build := Cell.make (.text "hello")
    encoding := "300568656c6c6f"
    digest := "ea57b49196130c02772fabfcd3fe0d303e72c0df192341e1849a345f2ba21e7e" },
  { name := "keyword_url"
    description := "keyword :url"
    build := Cell.makeKeyword "url"
    encoding := "330375726c"
    digest := "80d7e4f443c0998a6547a1f0ca5c9a981c13093b287425b5d9280ed30944544c" },
  { name := "address_1"
    description := "address #1"
    build := Cell.make (.address ⟨1⟩)
    encoding := "ea01"
    digest := "aa45da7e802ff6ddd55a9e8cb60a9c998262d0837f03618fb150c1c82d9ab627" },
  { name := "vector_small"
    description := "vector [1 \"two\"], children embedded"
    build := do Cell.makeVector [← Cell.make (.integer 1), ← Cell.make (.text "two")]
    encoding := "80021001300374776f"
    digest := "f89f81b90072b3b230d6c24980baad46942991e8c001d82c70f1b1a5f9eff10f" },
  { name := "vector_with_ref"
    description := "vector holding a 200-byte string, child written by hash"
    build := do Cell.makeVector [← Cell.make (.text (String.ofList (List.replicate 200 'x')))]
    encoding := "80012005e5e4a1a0961e4c5527a8a70769d60c49d6aa99dca0d291696ca418536b1e14"
    digest := "8f41b11fa8cd63e082aea9fbc1358888f857c5ba57cc9f12b4e598abdf4faddb" },
  { name := "map_single"
    description := "map \x7b:a 1\x7d"
    build := do Cell.makeMap [(← Cell.makeKeyword "a", ← Cell.make (.integer 1))]
    encoding := "82013301611001"
    digest := "5c6d16594c0972daf9e20ef59f9a7c4178de893ddfabaebd3c0ac197d2f7a241" },
  { name := "peer_fresh"
    description := "PeerStatus created for #1 with stake 100"
    build := do Cell.make (.peer (← StakeRecord.create ⟨1⟩ 100))
    encoding := "d1ea0180640000007f64"
    digest := "0f293e9333b2982537bcd23c23ecc36c620158ad61c9dac0dc04d4df9c4ba1b0" },
  { name := "peer_delegated"
    description := "PeerStatus for #1 with stake 100 and 25 shares delegated by #2"
    build := do
      let record : StakeRecord Link ← StakeRecord.create ⟨1⟩ 100
      Cell.make (.peer (← record.setDelegation ⟨2⟩ 25))
    encoding := "d1ea0180648201ea02101919007f7d"
    digest := "8dd9341ed0600ee12b4ed2b42028d731c5de4c9aa1feefb07ffe58eb3424ee91" }]

/-- The expected digest of an absent cell, in hexadecimal. -/
def absentDigest : String := "2d3adedff11b61f14c886e35afa036736dcd87a74d27b5c1510225d0f592e213"

/-- The cell of a fixed value, made on its own. -/
def cell (golden : Golden) : Except Fault Cell := (golden.build.run.run {}).1

/-- The encoding and the digest that are found, in hexadecimal. -/
def compute (golden : Golden) : Except Fault (String × String) :=
  golden.cell.map fun cell => (Hex.encode cell.encode, cell.digest.hex)

/-- Whether the encoding and the digest are the expected ones, with the digest that was found. -/
def verify (golden : Golden) : Bool × String :=
  match golden.compute with
  | .ok (encoding, digest) => (encoding = golden.encoding && digest = golden.digest, digest)
  | .error fault => (false, fault.message)

/-- A text as a JSON string. -/
def quote (text : String) : String :=
  "\"" ++ String.join (text.toList.map fun c =>
    if c = '"' then "\\\"" else if c = '\\' then "\\\\" else String.singleton c) ++ "\""

/-- A fixed value with what is found for it, as a JSON object on six lines. -/
def exportOne (golden : Golden) : Option String :=
  match golden.compute with
  | .error _ => none
  | .ok (encoding, digest) =>
    let line (field : String × String) := "    " ++ quote field.1 ++ ": " ++ quote field.2
    let fields := [("name", golden.name), ("description", golden.description),
      ("encoding", encoding), ("hash", digest)]
    some ("  \x7b\n" ++ String.intercalate ",\n" (fields.map line) ++ "\n  \x7d")

/-- All fixed values with what is found for them, as a JSON text. -/
def exportAll : String :=
  "[\n" ++ String.intercalate ",\n" (all.filterMap exportOne) ++ "\n]"

end Golden

end CellGraph
