import AisServer.Lib.Json

/-!
# YAML values as Python sees them

What `yaml.safe_load` returns, the operations of Python on such an object, and one tree laid over another.

* `index_eq_ok`, `asPath_eq_ok` — when an operation does not raise;
* `Covers` — a tree has every key of another one, at every level where that is a mapping;
* `Fits` — it has a mapping wherever it has a key under which the other one has a mapping;
* `Covers.refl` — a tree covers itself.
-/

namespace AisServer.Lib

/-- A key of a mapping.  Keys that are no text are numbered: the same number, an equal key. -/
inductive YamlKey
  | text (s : Str)
  | other (n : ℕ)
  deriving DecidableEq

inductive Yaml
  | null
  | bool (b : Bool)
  | int (n : ℤ)
  | float (x : PyFloat)
  | text (s : Str)
  /-- A date, a time, bytes or a set. -/
  | other (truthy : Bool)
  | list (items : List Yaml)
  | dict (items : List (YamlKey × Yaml))

namespace Yaml

/-- `isinstance(x, dict)` -/
def isDict : Yaml → Bool
  | dict _ => true
  | _ => false

/-- `isinstance(x, str)` -/
def isText : Yaml → Bool
  | text _ => true
  | _ => false

/-- `bool(x)` -/
def truthy : Yaml → Bool
  | null => false
  | bool b => b
  | int n => n ≠ 0
  | float x => x ≠ .finite 0
  | text s => s ≠ []
  | other b => b
  | list items => !items.isEmpty
  | dict items => !items.isEmpty

/-- `x or y` -/
def or (x y : Yaml) : Yaml := if x.truthy then x else y

/-- `x[k]` for a key that is text. -/
def index (x : Yaml) (k : Str) : Except PyErr Yaml :=
  match x with
  | dict items =>
    match Dict.getItem items (.text k) with
    | some v => .ok v
    | none => .error (.key k)
  | _ => .error .type

/-- `x.get(k)` -/
def get (x : Yaml) (k : Str) : Except PyErr Yaml :=
  match x with
  | dict items => .ok ((Dict.getItem items (.text k)).getD null)
  | _ => .error .attribute

/-- `x[k] = v` -/
def set (x : Yaml) (k : Str) (v : Yaml) : Except PyErr Yaml :=
  match x with
  | dict items => .ok (dict (Dict.setItem items (.text k) v))
  | _ => .error .type

/-- `Path(x)` -/
def asPath : Yaml → Except PyErr Str
  | text s => .ok s
  | _ => .error .type

theorem index_eq_ok {x v : Yaml} {k : Str} :
    x.index k = .ok v ↔ ∃ items, x = .dict items ∧ Dict.getItem items (.text k) = some v := by
  cases x with
  | dict items =>
    simp only [index, Yaml.dict.injEq, exists_eq_left']
    rcases Dict.getItem items (.text k) with _ | v' <;> simp
  | _ => simp [index]

theorem asPath_eq_ok {x : Yaml} {s : Str} : x.asPath = .ok s ↔ x = .text s := by
  cases x <;> simp [asPath]

/-- The keys of every mapping in the tree are distinct, as those of a Python `dict` are. -/
inductive Distinct : Yaml → Prop
  | leaf {x : Yaml} : x.isDict = false → Distinct x
  | dict {items : Dict YamlKey Yaml} : (items.map (·.1)).Nodup →
      (∀ k v, Dict.getItem items k = some v → Distinct v) → Distinct (.dict items)

/-! ### One tree over another -/

/-- The tree has every key of `base`, at every level where `base` is a mapping. -/
inductive Covers : Yaml → Yaml → Prop
  | leaf {x base : Yaml} : base.isDict = false → Covers x base
  | dict {items base : Dict YamlKey Yaml} :
      (∀ k, Dict.getItem base k ≠ none → Dict.getItem items k ≠ none) →
      (∀ k b v, Dict.getItem base k = some b → Dict.getItem items k = some v → Covers v b) →
      Covers (.dict items) (.dict base)

/-- The tree has a mapping wherever it has a key under which `base` has a mapping. -/
inductive Fits : Yaml → Yaml → Prop
  | leaf {x base : Yaml} : base.isDict = false → Fits x base
  | dict {items base : Dict YamlKey Yaml} :
      (∀ k b v, Dict.getItem base k = some b → Dict.getItem items k = some v → Fits v b) →
      Fits (.dict items) (.dict base)

theorem sizeOf_getItem {items : Dict YamlKey Yaml} {k : YamlKey} {v : Yaml}
    (h : Dict.getItem items k = some v) : sizeOf v < sizeOf items := by
  induction items with
  | nil => cases h
  | cons i items ih =>
    obtain ⟨k', v'⟩ := i
    rw [Dict.getItem] at h
    split at h
    · cases h
      simp
      omega
    · have := ih h
      simp
      omega

theorem Covers.refl : ∀ x : Yaml, Covers x x
  | .dict items => .dict (fun _ h => h) fun k b v hb hv => by
    obtain rfl : b = v := Option.some.inj (hb.symm.trans hv)
    have := sizeOf_getItem hb
    exact Covers.refl b
  | .null => .leaf rfl
  | .bool _ => .leaf rfl
  | .int _ => .leaf rfl
  | .float _ => .leaf rfl
  | .text _ => .leaf rfl
  | .other _ => .leaf rfl
  | .list _ => .leaf rfl
termination_by x => sizeOf x
decreasing_by
  simp
  omega

end Yaml

end AisServer.Lib
