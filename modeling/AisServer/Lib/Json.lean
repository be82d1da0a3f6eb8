import AisServer.Lib.Dict
import AisServer.Lib.Text
import Mathlib.Data.Rat.Defs

/-!
# JSON values as Python sees them

What `json.loads` returns, and the operations of Python on such an object.  An operation on an object of
another type raises: `PyErr` are the exceptions, and `Except PyErr` is an expression that may raise.

A text in JSON may have an escape for one half of a surrogate pair without the other.  `json.loads` keeps it in the
`str`, so such a text is a `PyStr`, and only `PyStr.encode` gets a `Str` of it.
-/

namespace AisServer.Lib

/-- A Python `float`. -/
inductive PyFloat
  | finite (q : ℚ)
  | inf (negative : Bool)
  | nan
  deriving DecidableEq

/-- A code point of a Python `str`: a character, or the surrogate at `0xd800 + n`. -/
inductive CodePoint
  | char (c : Char)
  | surrogate (n : Fin 2048)
  deriving DecidableEq

/-- A Python `str` that may have surrogates in it. -/
abbrev PyStr := List CodePoint

inductive Json
  | null
  | bool (b : Bool)
  | int (n : ℤ)
  | float (x : PyFloat)
  | str (s : PyStr)
  | list (items : List Json)
  | dict (items : List (PyStr × Json))

/-- The exceptions that an expression can raise. -/
inductive PyErr
  | key (k : Str)
  | type
  | value
  | overflow
  | attribute
  /-- `UnicodeEncodeError` -/
  | encoding
  /-- `sqlite3` cannot bind the object to a parameter. -/
  | binding
  | integrity
  deriving DecidableEq

theorem bind_eq_ok {ε α β : Type} {x : Except ε α} {f : α → Except ε β} {b : β} :
    (x >>= f) = .ok b ↔ ∃ a, x = .ok a ∧ f a = .ok b := by
  cases x with
  | error e =>
    constructor
    · intro h
      cases h
    · rintro ⟨a, h, -⟩
      cases h
  | ok a =>
    constructor
    · intro h
      exact ⟨a, rfl, h⟩
    · rintro ⟨a', h, hf⟩
      cases h
      exact hf

theorem mapM_isOk {ε α β : Type} {f : α → Except ε β} {l : List α} :
    (∃ bs, l.mapM f = .ok bs) ↔ ∀ a ∈ l, ∃ b, f a = .ok b := by
  induction l with
  | nil => exact iff_of_true ⟨[], rfl⟩ (by simp)
  | cons a l ih =>
    rw [List.mapM_cons, List.forall_mem_cons, ← ih]
    constructor
    · rintro ⟨_, h⟩
      obtain ⟨b, hb, h⟩ := bind_eq_ok.1 h
      obtain ⟨bs, hbs, -⟩ := bind_eq_ok.1 h
      exact ⟨⟨b, hb⟩, bs, hbs⟩
    · rintro ⟨⟨b, hb⟩, bs, hbs⟩
      exact ⟨b :: bs, bind_eq_ok.2 ⟨b, hb, bind_eq_ok.2 ⟨bs, hbs, rfl⟩⟩⟩

theorem mapM_eq_nil {ε α β : Type} {f : α → Except ε β} {l : List α} {bs : List β} (h : l.mapM f = .ok bs) :
    bs = [] ↔ l = [] := by
  cases l with
  | nil =>
    cases h
    simp
  | cons a l =>
    rw [List.mapM_cons] at h
    obtain ⟨b, -, h⟩ := bind_eq_ok.1 h
    obtain ⟨bs', -, h⟩ := bind_eq_ok.1 h
    cases h
    simp

theorem mem_of_mapM_eq_ok {ε α β : Type} {f : α → Except ε β} {l : List α} {bs : List β} {b : β}
    (h : l.mapM f = .ok bs) (hb : b ∈ bs) : ∃ a ∈ l, f a = .ok b := by
  induction l generalizing bs with
  | nil =>
    cases h
    cases hb
  | cons a l ih =>
    rw [List.mapM_cons] at h
    obtain ⟨b', hb', h⟩ := bind_eq_ok.1 h
    obtain ⟨bs', hbs', h⟩ := bind_eq_ok.1 h
    cases h
    rcases List.mem_cons.1 hb with rfl | hb
    · exact ⟨a, List.mem_cons_self, hb'⟩
    · obtain ⟨a', ha', hfa⟩ := ih hbs' hb
      exact ⟨a', List.mem_cons_of_mem _ ha', hfa⟩

namespace PyStr

def ofStr (s : Str) : PyStr := s.map .char

/-- The text that `s.encode("utf-8")` is the encoding of: a surrogate has none. -/
def encode : PyStr → Except PyErr Str
  | [] => .ok []
  | .char c :: s => do pure (c :: (← encode s))
  | .surrogate _ :: _ => .error .encoding

def isSpace : CodePoint → Bool
  | .char c => c ∈ spaces
  | .surrogate _ => false

/-- `s.strip()` -/
def strip (s : PyStr) : PyStr := ((s.dropWhile isSpace).reverse.dropWhile isSpace).reverse

theorem ofStr_injective : Function.Injective ofStr :=
  List.map_injective_iff.mpr fun _ _ h => CodePoint.char.inj h

theorem encode_eq_ok {s : PyStr} {t : Str} : s.encode = .ok t ↔ s = ofStr t := by
  induction s generalizing t with
  | nil =>
    rw [encode, Except.ok.injEq]
    cases t <;> simp [ofStr]
  | cons x s ih =>
    cases x with
    | char c =>
      rw [encode, bind_eq_ok]
      constructor
      · rintro ⟨t', ht', h⟩
        cases h
        rw [ih.mp ht']
        rfl
      · intro h
        cases t with
        | nil => cases h
        | cons c' t =>
          obtain ⟨hc, hs⟩ := List.cons.inj h
          obtain rfl := CodePoint.char.inj hc
          exact ⟨t, ih.mpr hs, rfl⟩
    | surrogate n => exact ⟨fun h => (nomatch h), fun h => by cases t <;> cases h⟩

end PyStr

/-- A literal. -/
abbrev text (s : String) : PyStr := PyStr.ofStr s.toList

theorem text_injective : Function.Injective text := PyStr.ofStr_injective.comp fun _ _ => String.toList_injective

namespace Json

/-- `bool(x)` -/
def truthy : Json → Bool
  | null => false
  | bool b => b
  | int n => n ≠ 0
  | float x => x ≠ .finite 0
  | str s => s ≠ []
  | list items => !items.isEmpty
  | dict items => !items.isEmpty

/-- `x or y` -/
def or (x y : Json) : Json := if x.truthy then x else y

/-- `x[k]` for a key that is text. -/
def index (x : Json) (k : Str) : Except PyErr Json :=
  match x with
  | dict items =>
    match Dict.getItem items (.ofStr k) with
    | some v => .ok v
    | none => .error (.key k)
  | _ => .error .type

/-- `x.get(k, default)` -/
def get (x : Json) (k : Str) (default : Json) : Except PyErr Json :=
  match x with
  | dict items => .ok ((Dict.getItem items (.ofStr k)).getD default)
  | _ => .error .attribute

/-- `k in x` for a text `k`. -/
def contains (x : Json) (k : Str) : Except PyErr Bool :=
  match x with
  | dict items => .ok (Dict.getItem items (.ofStr k)).isSome
  | list items => .ok (items.any fun
      | str s => s = .ofStr k
      | _ => false)
  | str s => .ok (s.tails.any (PyStr.ofStr k).isPrefixOf)
  | _ => .error .type

/-- `x[k] = v` -/
def set (x : Json) (k : Str) (v : Json) : Except PyErr Json :=
  match x with
  | dict items => .ok (dict (Dict.setItem items (.ofStr k) v))
  | _ => .error .type

/-- `int(x)` -/
def toInt : Json → Except PyErr ℤ
  | int n => .ok n
  | bool b => .ok b.toNat
  | float (.finite q) => .ok (q.num.tdiv q.den)
  | float (.inf _) => .error .overflow
  | float .nan => .error .value
  | str s =>
    match s.encode.toOption.bind (pyInt 10) with
    | some n => .ok n
    | none => .error .value
  | _ => .error .type

/-- `len(x)` -/
def len : Json → Except PyErr ℕ
  | str s => .ok s.length
  | list items => .ok items.length
  | dict items => .ok items.length
  | _ => .error .type

/-- `x` where a function asks for text and takes one of its methods. -/
def asText : Json → Except PyErr PyStr
  | str s => .ok s
  | _ => .error .attribute

/-- `x.strip()` -/
def strip (x : Json) : Except PyErr PyStr := x.asText.map PyStr.strip

example : (dict [(text "port", str (text " 10110 "))]).index "port".toList >>= toInt = .ok 10110 := by
  decide

end Json

end AisServer.Lib
