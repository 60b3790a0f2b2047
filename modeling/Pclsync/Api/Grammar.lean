import Pclsync.Api.Result

/-! What a binary response means: the values that its bytes denote, given the
strings defined so far, and the room their result takes. Nothing here runs; the
passes are compared with it. -/

namespace Pclsync.Api
open Library

/-- A value. A string carries the id under which it was defined. -/
inductive Tree where
  | str (id : ℕ) (text : Bytes)
  | num (value : ℕ)
  | bool (value : Bool)
  | array (entries : List Tree)
  | hash (entries : List (Tree × Tree))
  | data (value : ℕ)

def Tree.isStr : Tree → Bool
  | .str _ _ => true
  | _ => false

/-- Of keys and values in turn, the pairs whose key is a string. -/
def keyed : List Tree → List (Tree × Tree)
  | key :: value :: rest => if key.isStr then (key, value) :: keyed rest else keyed rest
  | _ => []

/-- Keys and values in turn. -/
def flat {α : Type} (pairs : List (α × α)) : List α := pairs.flatMap fun pair => [pair.1, pair.2]

/-- One value, the rest of an array, or the rest of a hash. -/
inductive Shape where
  | value
  | elements
  | pairs
deriving DecidableEq

/-- A type byte with the number that it carries or that stands behind it. -/
inductive Carries (base limit wide : ℕ) : Bytes → ℕ → Prop where
  | short (type : UInt8) (range : base ≤ type.toNat ∧ type.toNat < base + limit) :
      Carries base limit wide [type] (type.toNat - base)
  | long (type : UInt8) (digits : Bytes) (range : wide ≤ type.toNat ∧ type.toNat ≤ wide + 3)
      (width : digits.length = type.toNat - wide + 1) : Carries base limit wide (type :: digits) (leNumber digits)

/-- `Reads shape texts bytes trees size texts'`: after the strings `texts`, the
bytes denote the trees, whose result takes `size` bytes, and leave `texts'`. -/
inductive Reads : Shape → List Bytes → Bytes → List Tree → ℕ → List Bytes → Prop where
  | str {texts : List Bytes} {head text : Bytes} (header : Carries 100 50 0 head text.length) :
      Reads .value texts (head ++ text) [.str texts.length text] (8 + (text.length + 8) / 8 * 8) (texts ++ [text])
  | rstr {texts : List Bytes} {head text : Bytes} {id : ℕ} (header : Carries 150 50 4 head id)
      (known : texts[id]? = some text) : Reads .value texts head [.str id text] 0 texts
  | num {texts : List Bytes} {digits : Bytes} (type : UInt8) (range : 8 ≤ type.toNat ∧ type.toNat ≤ 15)
      (width : digits.length = type.toNat - 8 + 1) :
      Reads .value texts (type :: digits) [.num (leNumber digits)] 16 texts
  | small {texts : List Bytes} (type : UInt8) (range : 200 ≤ type.toNat ∧ type.toNat < 220) :
      Reads .value texts [type] [.num (type.toNat - 200)] 0 texts
  | bool {texts : List Bytes} (value : Bool) :
      Reads .value texts [if value then 19 else 18] [.bool value] 0 texts
  | data {texts : List Bytes} {digits : Bytes} (width : digits.length = 8) :
      Reads .value texts (20 :: digits) [.data (leNumber digits)] 16 texts
  | array {texts after : List Bytes} {body : Bytes} {trees : List Tree} {size : ℕ}
      (entries : Reads .elements texts body trees size after) :
      Reads .value texts (17 :: body) [.array trees] (16 + size + 8 * trees.length) after
  | hash {texts after : List Bytes} {body : Bytes} {trees : List Tree} {size : ℕ}
      (entries : Reads .pairs texts body trees size after) :
      Reads .value texts (16 :: body) [.hash (keyed trees)] (16 + size + 8 * trees.length) after
  | elementsEnd {texts : List Bytes} : Reads .elements texts [255] [] 0 texts
  | element {texts middle after : List Bytes} {first rest : Bytes} {tree : Tree} {trees : List Tree} {size more : ℕ}
      (head : Reads .value texts first [tree] size middle) (tail : Reads .elements middle rest trees more after) :
      Reads .elements texts (first ++ rest) (tree :: trees) (size + more) after
  | pairsEnd {texts : List Bytes} : Reads .pairs texts [255] [] 0 texts
  | pair {texts second third after : List Bytes} {first next rest : Bytes} {key value : Tree} {trees : List Tree}
      {size other more : ℕ} (head : Reads .value texts first [key] size second)
      (body : Reads .value second next [value] other third) (tail : Reads .pairs third rest trees more after) :
      Reads .pairs texts (first ++ (next ++ rest)) (key :: value :: trees) (size + other + more) after

/-- The response ends right behind a byte that opens an array or a hash, where
that byte was read as the type of a value. -/
inductive Dangling : Shape → List Bytes → Bytes → Prop where
  | array {texts : List Bytes} : Dangling .value texts [17]
  | hash {texts : List Bytes} : Dangling .value texts [16]
  | inArray {texts : List Bytes} {body : Bytes} (dangles : Dangling .elements texts body) :
      Dangling .value texts (17 :: body)
  | inHash {texts : List Bytes} {body : Bytes} (dangles : Dangling .pairs texts body) :
      Dangling .value texts (16 :: body)
  | element {texts : List Bytes} {bytes : Bytes} (dangles : Dangling .value texts bytes) :
      Dangling .elements texts bytes
  | later {texts middle : List Bytes} {first rest : Bytes} {trees : List Tree} {size : ℕ}
      (head : Reads .value texts first trees size middle) (dangles : Dangling .elements middle rest) :
      Dangling .elements texts (first ++ rest)
  | key {texts : List Bytes} {bytes : Bytes} (dangles : Dangling .value texts bytes) : Dangling .pairs texts bytes
  | value {texts middle : List Bytes} {first rest : Bytes} {trees : List Tree} {size : ℕ}
      (head : Reads .value texts first trees size middle) (dangles : Dangling .value middle rest) :
      Dangling .pairs texts (first ++ rest)
  | laterPair {texts second third : List Bytes} {first next rest : Bytes} {trees others : List Tree} {size other : ℕ}
      (head : Reads .value texts first trees size second) (body : Reads .value second next others other third)
      (dangles : Dangling .pairs third rest) : Dangling .pairs texts (first ++ (next ++ rest))

theorem Carries.nonempty {base limit wide id : ℕ} {head : Bytes} (header : Carries base limit wide head id) :
    ∃ type rest, head = type :: rest ∧
      ((base ≤ type.toNat ∧ type.toNat < base + limit) ∨ (wide ≤ type.toNat ∧ type.toNat ≤ wide + 3)) := by
  cases header with
  | short type range => exact ⟨type, [], rfl, .inl range⟩
  | long type digits range width => exact ⟨type, digits, rfl, .inr range⟩

/-- A value never begins with the byte that closes an array or a hash. -/
theorem Reads.nonempty {shape : Shape} {texts after : List Bytes} {bytes : Bytes} {trees : List Tree} {size : ℕ}
    (reads : Reads shape texts bytes trees size after) :
    ∃ type rest, bytes = type :: rest ∧ (shape = .value → type.toNat ≠ 255) := by
  induction reads with
  | str header =>
    obtain ⟨type, rest, rfl, range⟩ := header.nonempty
    exact ⟨type, rest ++ _, rfl, fun _ => by omega⟩
  | rstr header known =>
    obtain ⟨type, rest, rfl, range⟩ := header.nonempty
    exact ⟨type, rest, rfl, fun _ => by omega⟩
  | num type range width => exact ⟨type, _, rfl, fun _ => by omega⟩
  | small type range => exact ⟨type, [], rfl, fun _ => by omega⟩
  | bool value => exact ⟨_, [], rfl, fun _ => by cases value <;> decide⟩
  | data width => exact ⟨20, _, rfl, fun _ => by decide⟩
  | array entries ih => exact ⟨17, _, rfl, fun _ => by decide⟩
  | hash entries ih => exact ⟨16, _, rfl, fun _ => by decide⟩
  | elementsEnd => exact ⟨255, [], rfl, nofun⟩
  | element head tail first _ =>
    obtain ⟨type, rest, rfl, _⟩ := first
    exact ⟨type, rest ++ _, rfl, nofun⟩
  | pairsEnd => exact ⟨255, [], rfl, nofun⟩
  | pair head body tail first _ _ =>
    obtain ⟨type, rest, rfl, _⟩ := first
    exact ⟨type, rest ++ _, rfl, nofun⟩

theorem Dangling.nonempty {shape : Shape} {texts : List Bytes} {bytes : Bytes} (dangles : Dangling shape texts bytes) :
    ∃ type rest, bytes = type :: rest ∧ type.toNat ≠ 255 := by
  induction dangles with
  | array => exact ⟨17, [], rfl, by decide⟩
  | hash => exact ⟨16, [], rfl, by decide⟩
  | inArray _ _ => exact ⟨17, _, rfl, by decide⟩
  | inHash _ _ => exact ⟨16, _, rfl, by decide⟩
  | element _ ih | key _ ih => exact ih
  | later head _ _ | value head _ _ | laterPair head _ _ _ =>
    obtain ⟨type, rest, rfl, valued⟩ := head.nonempty
    exact ⟨type, rest ++ _, rfl, valued rfl⟩

end Pclsync.Api
