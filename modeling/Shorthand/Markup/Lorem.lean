import Shorthand.Markup.Node
import Shorthand.Text.Character
import Shorthand.Text.Span

/-!
# Lorem — placeholder text

An element called `lorem` or `lipsum`, with an optional number of words, stands for generated text.
The text is always the same: eight opening words, then words picked from a fixed list by a fixed
stride, cut into sentences of fixed lengths.
-/

namespace Shorthand.Markup.Lorem

open Text

/-- The words when no number is written. -/
def defaultCount : Nat := 30

/-- The words every text opens with. -/
def opening : List String :=
  ["lorem", "ipsum", "dolor", "sit", "amet", "consectetur", "adipisicing", "elit"]

/-- The words that follow, in no particular order. -/
def stock : List String :=
  ["exercitationem", "perferendis", "perspiciatis", "laborum", "eveniet", "sunt", "iure", "nam",
   "nobis", "eum", "cum", "officiis", "excepturi", "odio", "consectetur", "quasi", "aut",
   "quisquam", "vel", "eligendi", "itaque", "non", "odit", "tempore", "quaerat", "dignissimos",
   "facilis", "neque", "nihil", "expedita", "vitae", "vero", "ipsum", "nisi", "animi", "cumque",
   "pariatur", "velit", "modi", "natus", "iusto", "eaque", "sequi", "illo", "sed", "ex", "et",
   "voluptatibus", "tempora", "veritatis", "ratione", "assumenda", "incidunt", "nostrum",
   "placeat", "aliquid", "fuga", "provident", "praesentium", "rem", "necessitatibus", "suscipit",
   "adipisci", "quidem", "possimus", "voluptas", "debitis", "sint", "accusantium", "unde",
   "sapiente", "voluptate", "qui", "aspernatur", "laudantium", "soluta", "amet", "quo",
   "aliquam", "saepe", "culpa", "libero", "ipsa", "dicta", "reiciendis", "nesciunt", "doloribus",
   "autem", "impedit", "minima", "maiores", "repudiandae", "ipsam", "obcaecati", "ullam", "enim",
   "totam", "delectus", "ducimus", "quis", "voluptates", "dolores", "molestiae", "harum",
   "dolorem", "quia", "voluptatem", "molestias", "magni", "distinctio", "omnis", "illum",
   "dolorum", "voluptatum", "ea", "quas", "quam", "corporis", "quae", "blanditiis", "atque",
   "deserunt", "laboriosam", "earum", "consequuntur", "hic", "cupiditate", "quibusdam",
   "accusamus", "ut", "rerum", "error", "minus", "eius", "ab", "ad", "nemo", "fugit", "officia",
   "at", "in", "id", "quos", "reprehenderit", "numquam", "iste", "fugiat", "sit", "inventore",
   "beatae", "repellendus", "magnam", "recusandae", "quod", "explicabo", "doloremque", "aperiam",
   "consequatur", "asperiores", "commodi", "optio", "dolor", "labore", "temporibus", "repellat",
   "veniam", "architecto", "est", "esse", "mollitia", "nulla", "a", "similique", "eos", "alias",
   "dolore", "tenetur", "deleniti", "porro", "facere", "maxime", "corrupti"]

/-- The `i`-th word of the endless text: the opening, then every seventh word of the stock, around
and around. -/
def word (i : Nat) : String :=
  if i < opening.length then opening.getD i ""
  else stock.getD ((i - opening.length) * 7 % stock.length) ""

/-- How many words the `k`-th sentence has: the opening makes the first, and seven lengths take
turns after it. -/
def sentenceLength : Nat → Nat
  | 0 => 8
  | k + 1 =>
    match k % 7 with
    | 0 => 7
    | 1 => 11
    | 2 => 5
    | 3 => 9
    | 4 => 13
    | 5 => 6
    | _ => 10

theorem sentenceLength_pos (k : Nat) : 0 < sentenceLength k := by
  unfold sentenceLength
  split
  · decide
  · split <;> decide

/-- Cuts words into sentences, of which the first is the `k`-th. The last one may be cut short. -/
def sentences (k : Nat) (words : List String) : List (List String) :=
  if words.isEmpty then []
  else words.take (sentenceLength k) :: sentences (k + 1) (words.drop (sentenceLength k))
termination_by words.length
decreasing_by
  have pos := sentenceLength_pos k
  have some_word : 0 < words.length := by
    rw [List.length_pos_iff]
    intro hnil
    exact absurd (by rw [hnil]; rfl) ‹¬words.isEmpty = true›
  rw [List.length_drop]
  omega

/-- A sentence: a capital first, a comma after the fifth word of a long one, and a period. -/
def sentence (words : List String) : String :=
  let written := words.mapIdx fun i w =>
    let w := if i = 0 then capitalize w else w
    if i = 4 && words.length > 6 then w ++ "," else w
  String.intercalate " " written ++ "."

/-- `count` words of placeholder text. -/
def generate (count : Nat) : String :=
  String.intercalate " " ((sentences 0 ((List.range count).map word)).map sentence)

/-- How many words an element of this name asks for, if it is placeholder text at all. -/
def wordCount? (name : String) : Option Nat :=
  let count (digits : List Char) : Option Nat :=
    if digits.isEmpty then some defaultCount
    else if digits.all Char.isDigit then decimal? digits
    else none
  match name.toList with
  | 'l' :: 'o' :: 'r' :: 'e' :: 'm' :: digits => count digits
  | 'l' :: 'i' :: 'p' :: 's' :: 'u' :: 'm' :: digits => count digits
  | _ => none

/-- The most words there can be at a time: a word takes sixteen bytes of memory, and nothing takes
more bytes than an address with a sign can count. -/
def capacity : Nat := (UInt64.size / 2 - 1) / 16

/-- What is said when more words are asked for. -/
def overflowMessage : String := "capacity overflow"

/-- The element with `count` generated words for its text and without its name. -/
def fill (count : Nat) (e : Element) : Element :=
  { e with name := none, text := some (Value.ofText (generate count)) }

end Shorthand.Markup.Lorem
