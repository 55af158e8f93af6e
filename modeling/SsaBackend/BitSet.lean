import SsaBackend.Error
import SsaBackend.Total

/-!
# Sets of small numbers, a word at a time

A `BitSet` of capacity `n` holds numbers below `n`, 64 to a word. Liveness, interference and
graph searches all keep their sets in this form. The bits of the last word that lie past the
capacity are always zero; counting, comparing and listing look at whole words and rely on it.

Reading a number past the capacity finds it absent. Writing one is refused by `insert?` and
`erase?`, as is combining sets of different capacity by `union?` and `sdiff?`; each of the
four also tells whether the set changed. `insert`, `erase`, `union` and `sdiff` are the same
operations for callers that have already seen to the bounds.

A `Cursor` walks through the members in ascending order. It takes the lowest bit out of a copy of
a word until nothing is left of it, and then goes on to the next word.
-/

namespace SsaBackend

/-- The word in which only bit `i` is set. -/
def wordBit (i : Nat) : UInt64 := 1 <<< UInt64.ofNat (i % 64)

/-- Whether bit `i` of a word is set. -/
def wordHas (w : UInt64) (i : Nat) : Bool := w &&& wordBit i != 0

/-- The bits that are set in a word, lowest first. -/
def wordMembers (w : UInt64) : List Nat :=
  if w = 0 then [] else (List.range 64).filter (wordHas w)

/-- How many bits of a word are set. -/
def wordCount (w : UInt64) : Nat := (wordMembers w).length

/-- The lowest bit that is set in a word, 64 if there is none. -/
def wordLowest (w : UInt64) : Nat := ((List.range 64).find? (wordHas w)).getD 64

/-! ## Walking through words -/

/-- A walk through words: the number of the word at which it is, the bits of it that are left, and
the words behind. -/
structure Cursor where
  place : Nat
  left : UInt64
  rest : List UInt64

namespace Cursor

/-- The next bit that is set, and the walk behind it. A word of which nothing is left is passed
over. -/
def nextFrom (place : Nat) (left : UInt64) (rest : List UInt64) : Option (Nat × Cursor) :=
  if left = 0 then
    match rest with
    | [] => none
    | w :: rest => nextFrom (place + 1) w rest
  else some (64 * place + wordLowest left, ⟨place, left &&& (left - 1), rest⟩)

/-- Goes on to the next bit that is set. -/
def next? (c : Cursor) : Option (Nat × Cursor) := nextFrom c.place c.left c.rest

/-- What up to `n` steps of a walk come upon. -/
def take : Nat → Cursor → List Nat
  | 0, _ => []
  | n + 1, c =>
    match c.next? with
    | none => []
    | some (i, c') => i :: take n c'

end Cursor

/-- A set of numbers below `capacity`, 64 to a word. -/
structure BitSet where
  capacity : Nat
  words : List UInt64
  deriving DecidableEq, Repr

namespace BitSet

/-! ## Making sets -/

/-- The empty set of the given capacity. -/
def empty (capacity : Nat) : BitSet := ⟨capacity, List.replicate ((capacity + 63) / 64) 0⟩

/-- Takes every member out and keeps the capacity. -/
def clear (s : BitSet) : BitSet := ⟨s.capacity, s.words.map fun _ => 0⟩

/-- The bits of the last word when the set is full. A capacity that is a multiple of 64
fills the word; otherwise the bits past the capacity stay zero. -/
def lastWord (capacity : Nat) : UInt64 :=
  if capacity % 64 = 0 then ~~~0 else wordBit capacity - 1

/-- Fills words with ones, the last one only up to the capacity. -/
def fillWords (capacity : Nat) : List UInt64 → List UInt64
  | [] => []
  | [_] => [lastWord capacity]
  | _ :: rest => ~~~0 :: fillWords capacity rest

/-- Puts every number below the capacity in. -/
def fill (s : BitSet) : BitSet := ⟨s.capacity, fillWords s.capacity s.words⟩

/-- The set of all numbers below the capacity. -/
def full (capacity : Nat) : BitSet := (empty capacity).fill

/-! ## Asking -/

/-- Whether `i` is a member. Numbers past the capacity are not. -/
def contains (s : BitSet) (i : Nat) : Bool :=
  i < s.capacity && wordHas (s.words.getD (i / 64) 0) i

/-- Whether the set has no member. -/
def isEmpty (s : BitSet) : Bool := s.words.all (· = 0)

/-- The number of members. -/
def count (s : BitSet) : Nat := total (s.words.map wordCount)

/-- The number of common members, over the words that both sets have. -/
def interCount (s t : BitSet) : Nat :=
  total (List.zipWith (fun a b => wordCount (a &&& b)) s.words t.words)

/-- The walk through the members. -/
def cursor (s : BitSet) : Cursor := ⟨0, s.words.headD 0, s.words.tail⟩

/-- The members in ascending order, of which there are at most 64 to a word. -/
def toList (s : BitSet) : List Nat := s.cursor.take (64 * s.words.length)

instance : ToString BitSet where
  toString s := "\x7b" ++ String.intercalate ", " (s.toList.map toString) ++ "\x7d"

/-! ## Changing -/

/-- Puts `i` in; a number past the capacity changes nothing. -/
def insert (s : BitSet) (i : Nat) : BitSet :=
  if i < s.capacity then ⟨s.capacity, s.words.modify (i / 64) (· ||| wordBit i)⟩ else s

/-- Takes `i` out. -/
def erase (s : BitSet) (i : Nat) : BitSet :=
  if i < s.capacity then ⟨s.capacity, s.words.modify (i / 64) (· &&& ~~~wordBit i)⟩ else s

/-- The members of either set, for sets of one capacity. -/
def union (s t : BitSet) : BitSet := ⟨s.capacity, List.zipWith (· ||| ·) s.words t.words⟩

/-- The members of the first set that are not in the second, for sets of one capacity. -/
def sdiff (s t : BitSet) : BitSet := ⟨s.capacity, List.zipWith (· &&& ~~~·) s.words t.words⟩

/-- Puts all the numbers of a list in. -/
def insertAll (s : BitSet) (is : List Nat) : BitSet := is.foldl insert s

/-! ## Changing with the bounds checked

Each answers whether the set changed, and the set afterwards. -/

/-- Puts `i` in, which must be below the capacity. -/
def insert? (s : BitSet) (i : Nat) : Except Error (Bool × BitSet) :=
  if i < s.capacity then .ok (!s.contains i, s.insert i) else .error .outOfRange

/-- Takes `i` out, which must be below the capacity. -/
def erase? (s : BitSet) (i : Nat) : Except Error (Bool × BitSet) :=
  if i < s.capacity then .ok (s.contains i, s.erase i) else .error .outOfRange

/-- Whether combining two sets changes one of the words of the first. -/
def changes (f : UInt64 → UInt64 → UInt64) (s t : BitSet) : Bool :=
  (s.words.zip t.words).any fun (a, b) => a != f a b

/-- Adds the members of a set of the same capacity. -/
def union? (s t : BitSet) : Except Error (Bool × BitSet) :=
  if s.capacity = t.capacity then .ok (changes (· ||| ·) s t, s.union t) else .error .outOfRange

/-- Takes the members of a set of the same capacity away. -/
def sdiff? (s t : BitSet) : Except Error (Bool × BitSet) :=
  if s.capacity = t.capacity then .ok (changes (· &&& ~~~·) s t, s.sdiff t) else .error .outOfRange

end BitSet

end SsaBackend
