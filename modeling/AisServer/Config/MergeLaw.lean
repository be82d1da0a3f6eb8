import AisServer.Config.Merge

/-!
# The law of the merge

What `_deep_merge` gives at every path, and that it writes to nothing but what it has made itself.  For the second the
mappings have an identity: `mergeObj` is the function on objects, with a log of its writes.

* `deepMerge_at` — the merged tree at a path;
* `deepMerge_self`, `deepMerge_again` — merging once more changes nothing;
* `mergeObj_tree` — on objects the function computes the merged tree;
* `deep_merge_law` — the law, for objects.
-/

namespace AisServer.Config

open AisServer.Lib AisServer.Lib.Yaml

/-! ### Paths -/

/-- `x[k₁]...[kₙ]`, where every step is one into a mapping. -/
def valueAt : Yaml → List YamlKey → Option Yaml
  | x, [] => some x
  | .dict items, k :: path => (Dict.getItem items k).bind fun v => valueAt v path
  | _, _ :: _ => none

/-- On the way along the path there is a mapping without the next key. -/
def Silent : Yaml → List YamlKey → Prop
  | _, [] => False
  | .dict items, k :: path => ∀ v ∈ Dict.getItem items k, Silent v path
  | _, _ :: _ => False

/-- What the merge of `override` into `base` has at a path. -/
structure MergedAt (base override out : Yaml) (path : List YamlKey) : Prop where
  /-- The override's value, if one of the two has no mapping there. -/
  replaced : ∀ v, valueAt override path = some v →
    (v.isDict = false ∨ ∀ b, valueAt base path = some b → b.isDict = false) → valueAt out path = some v
  both : ∀ b v, valueAt base path = some (.dict b) → valueAt override path = some (.dict v) →
    ∃ x, deepMerge b (.dict v) = .ok x ∧ valueAt out path = some (.dict x)
  silent : Silent override path → valueAt out path = valueAt base path
  /-- Below a value of the override that is no mapping there is nothing. -/
  below : valueAt override path = none → ¬ Silent override path → valueAt out path = none

variable {base out items : Dict YamlKey Yaml} {k : YamlKey} {v x : Yaml} {path : List YamlKey}

theorem valueAt_cons (h : Dict.getItem items k = some v) : valueAt (.dict items) (k :: path) = valueAt v path := by
  rw [valueAt, h, Option.bind_some]

theorem valueAt_cons_none (h : Dict.getItem items k = none) : valueAt (.dict items) (k :: path) = none := by
  rw [valueAt, h, Option.bind_none]

theorem valueAt_of_leaf (h : v.isDict = false) (hpath : path ≠ []) : valueAt v path = none := by
  cases path with
  | nil => exact absurd rfl hpath
  | cons k path =>
    cases v with
    | dict => cases h
    | _ => rfl

theorem silent_cons (h : Dict.getItem items k = some v) : Silent (.dict items) (k :: path) ↔ Silent v path := by
  simp [Silent, h]

theorem Silent.isDict (h : Silent v path) : v.isDict = true := by
  cases path with
  | nil => exact absurd h (by simp [Silent])
  | cons k path =>
    cases v with
    | dict => rfl
    | _ => exact absurd h (by simp [Silent])

theorem Silent.valueAt (h : Silent v path) : valueAt v path = none := by
  induction path generalizing v with
  | nil => exact absurd h (by simp [Silent])
  | cons k path ih =>
    cases v with
    | dict items =>
      rcases hk : Dict.getItem items k with _ | x
      · exact valueAt_cons_none hk
      · rw [valueAt_cons hk]
        exact ih ((silent_cons hk).1 h)
    | _ => exact absurd h (by simp [Silent])

/-- Where one of the two is no mapping the override's value takes the place. -/
theorem mergedAt_replaced {old : Option Yaml} (h : (v.isDict && old.any isDict) = false)
    (hbase : Dict.getItem base k = old) (hitems : Dict.getItem items k = some v) (hout : Dict.getItem out k = some v) :
    MergedAt (.dict base) (.dict items) (.dict out) (k :: path) := by
  have hold : v.isDict = true → ∀ b, valueAt (.dict base) (k :: path) = some b → old = some b ∧ path = [] := by
    intro hv b hb
    rcases old with _ | b'
    · rw [valueAt_cons_none hbase] at hb
      cases hb
    · rw [hv, Bool.true_and, Option.any_some] at h
      rw [valueAt_cons hbase] at hb
      by_cases hpath : path = []
      · subst hpath
        exact ⟨hb, rfl⟩
      · rw [valueAt_of_leaf h hpath] at hb
        cases hb
  refine ⟨fun v' hv' _ => ?_, fun b v' hb hv' => ?_, fun hsilent => ?_, fun hnone _ => ?_⟩
  · rw [valueAt_cons hitems] at hv'
    rwa [valueAt_cons hout]
  · rw [valueAt_cons hitems] at hv'
    have hdict : v.isDict = true := by
      by_cases hpath : path = []
      · subst hpath
        cases hv'
        rfl
      · by_contra hv
        rw [valueAt_of_leaf (by simpa using hv) hpath] at hv'
        cases hv'
    obtain ⟨rfl, rfl⟩ := hold hdict _ hb
    rw [hdict] at h
    cases h
  · rw [silent_cons hitems] at hsilent
    rw [valueAt_cons hout, hsilent.valueAt, eq_comm]
    rcases hb : valueAt (.dict base) (k :: path) with _ | b
    · rfl
    · obtain ⟨-, rfl⟩ := hold hsilent.isDict b hb
      exact absurd hsilent (by simp [Silent])
  · rw [valueAt_cons hitems] at hnone
    rwa [valueAt_cons hout]

/-- **The merged tree at a path.** -/
theorem deepMerge_at (hd : Distinct (.dict items)) (h : deepMerge base (.dict items) = .ok out)
    (path : List YamlKey) : MergedAt (.dict base) (.dict items) (.dict out) path := by
  induction path generalizing base items out with
  | nil =>
    refine ⟨fun v hv hnot => ?_, fun b v hb hv => ?_, fun hsilent => absurd hsilent (by simp [Silent]),
      fun hnone => by cases hnone⟩
    · cases hv
      rcases hnot with hv | hb
      · cases hv
      · exact absurd (hb _ rfl) (by simp [isDict])
    · cases hb
      cases hv
      exact ⟨out, h, rfl⟩
  | cons k path ih =>
    rw [deepMerge] at h
    cases hd with
    | leaf hleaf => cases hleaf
    | dict hnd hsub =>
      rcases getItem_mergeItems k hnd h with ⟨hnone, hout⟩ | ⟨v, x, hv, hx, hm⟩
      · have hat : valueAt (.dict items) (k :: path) = none := valueAt_cons_none hnone
        have hsilent : Silent (.dict items) (k :: path) := by simp [Silent, hnone]
        refine ⟨fun v hv => ?_, fun b v _ hv => ?_, fun _ => ?_, fun _ hnot => absurd hsilent hnot⟩
        · rw [hat] at hv
          cases hv
        · rw [hat] at hv
          cases hv
        · rw [valueAt, valueAt, hout]
      · generalize hold : Dict.getItem base k = old at hm
        cases hm with
        | both hmerged =>
          rename_i b sub merged
          have hlaw := ih (hsub k _ hv) hmerged
          refine ⟨fun v' hv' hnot => ?_, fun b' v' hb' hv' => ?_, fun hsilent => ?_, fun hnone hnot => ?_⟩
          · rw [valueAt_cons hv] at hv'
            rw [valueAt_cons hx]
            refine hlaw.replaced v' hv' (hnot.imp_right fun hb b' hb' => hb b' ?_)
            rwa [valueAt_cons hold]
          · rw [valueAt_cons hv] at hv'
            rw [valueAt_cons hold] at hb'
            rw [valueAt_cons hx]
            exact hlaw.both b' v' hb' hv'
          · rw [valueAt_cons hx, valueAt_cons hold]
            exact hlaw.silent ((silent_cons hv).1 hsilent)
          · rw [valueAt_cons hv] at hnone
            rw [valueAt_cons hx]
            exact hlaw.below hnone fun hs => hnot ((silent_cons hv).2 hs)
        | replaced hnot => exact mergedAt_replaced hnot hold hv hx

/-! ### Merging again -/

theorem setItem_self (h : Dict.getItem out k = some x) : Dict.setItem out k x = out := by
  induction out with
  | nil => cases h
  | cons i out ih =>
    obtain ⟨k', y⟩ := i
    rw [Dict.getItem] at h
    rw [Dict.setItem]
    split at h
    · rename_i hk
      cases h
      rw [if_pos hk, hk]
    · rename_i hk
      rw [if_neg hk, ih h]

/-- What the loop would store for `v` under a key with the value `x` is `x`. -/
inductive Absorbs : Yaml → Yaml → Prop
  | both {x items : Dict YamlKey Yaml} : deepMerge x (.dict items) = .ok x → Absorbs (.dict x) (.dict items)
  | same {v : Yaml} : v.isDict = false → Absorbs v v

theorem mergeItems_absorbs (h : ∀ k v, (k, v) ∈ items → ∃ x, Dict.getItem out k = some x ∧ Absorbs x v) :
    mergeItems out items = .ok out := by
  induction items with
  | nil => rfl
  | cons i items ih =>
    obtain ⟨k, v⟩ := i
    obtain ⟨x, hx, ha⟩ := h k v List.mem_cons_self
    have hrest := ih fun k' v' hmem => h k' v' (List.mem_cons_of_mem _ hmem)
    cases ha with
    | both hself =>
      unfold mergeItems
      simp only [hx, hself]
      exact (congrArg (mergeItems · items) (setItem_self hx)).trans hrest
    | same hleaf =>
      unfold mergeItems
      split
      · cases hleaf
      · rw [setItem_self hx]
        exact hrest

/-- **A mapping merged with itself** is itself. -/
theorem deepMerge_self (hd : Distinct (.dict items)) : deepMerge items (.dict items) = .ok items := by
  generalize hv : Yaml.dict items = override at hd
  induction hd generalizing items with
  | leaf hleaf =>
    subst hv
    cases hleaf
  | dict hnd _ ih =>
    cases hv
    rw [deepMerge]
    refine mergeItems_absorbs fun k v hmem => ?_
    have hv := (Dict.getItem_eq_some hnd).2 hmem
    refine ⟨v, hv, ?_⟩
    cases v with
    | dict sub => exact .both (ih k _ hv rfl)
    | _ => exact .same rfl

/-- **Merging the same override again** changes nothing. -/
theorem deepMerge_again (hd : Distinct (.dict items)) (h : deepMerge base (.dict items) = .ok out) :
    deepMerge out (.dict items) = .ok out := by
  generalize hv : Yaml.dict items = override at hd
  induction hd generalizing base items out with
  | leaf hleaf =>
    subst hv
    cases hleaf
  | dict hnd hsub ih =>
    cases hv
    rw [deepMerge] at h ⊢
    refine mergeItems_absorbs fun k v hmem => ?_
    have hv := (Dict.getItem_eq_some hnd).2 hmem
    rcases getItem_mergeItems k hnd h with ⟨hnone, -⟩ | ⟨v', x, hv', hx, hm⟩
    · rw [hv] at hnone
      cases hnone
    · obtain rfl : v' = v := Option.some.inj (hv'.symm.trans hv)
      refine ⟨x, hx, ?_⟩
      generalize Dict.getItem base k = old at hm
      cases hm with
      | both hmerged => exact .both (ih k _ hv hmerged rfl)
      | replaced hnot =>
        cases v' with
        | dict sub => exact .both (deepMerge_self (hsub k _ hv))
        | _ => exact .same rfl

/-! ### Objects -/

/-- A Python object: a mapping has an identity. -/
inductive Obj
  | leaf (x : Yaml) (h : x.isDict = false)
  | dict (id : ℕ) (items : List (YamlKey × Obj))

/-- `d[key] = value`, where `d` is the mapping with that identity. -/
structure Write where
  id : ℕ
  key : YamlKey
  value : Obj

namespace Obj

mutual

/-- The value of an object. -/
def tree : Obj → Yaml
  | .leaf x _ => x
  | .dict _ items => .dict (treeItems items)

def treeItems : List (YamlKey × Obj) → List (YamlKey × Yaml)
  | [] => []
  | (k, v) :: items => (k, v.tree) :: treeItems items

end

mutual

/-- `copy.deepcopy`, when `next` is the next free identity. -/
def deepcopy (next : ℕ) : Obj → Obj × ℕ
  | .leaf x h => (.leaf x h, next)
  | .dict _ items =>
    let copied := copyItems (next + 1) items
    (.dict next copied.1, copied.2)

def copyItems (next : ℕ) : List (YamlKey × Obj) → List (YamlKey × Obj) × ℕ
  | [] => ([], next)
  | (k, v) :: items =>
    let copied := v.deepcopy next
    let rest := copyItems copied.2 items
    ((k, copied.1) :: rest.1, rest.2)

end

mutual

/-- Every identity in the object is below `next`. -/
def Below (next : ℕ) : Obj → Prop
  | .leaf _ _ => True
  | .dict id items => id < next ∧ BelowItems next items

def BelowItems (next : ℕ) : List (YamlKey × Obj) → Prop
  | [] => True
  | (_, v) :: items => v.Below next ∧ BelowItems next items

end

mutual

/-- The object after some writes. -/
def replay (writes : List Write) : Obj → Obj
  | .leaf x h => .leaf x h
  | .dict id items =>
    .dict id ((writes.filter (·.id = id)).foldl (fun d w => Dict.setItem d w.key w.value) (replayItems writes items))

def replayItems (writes : List Write) : List (YamlKey × Obj) → List (YamlKey × Obj)
  | [] => []
  | (k, v) :: items => (k, v.replay writes) :: replayItems writes items

end

end Obj

open Obj

/-- What a call returns, the next free identity, and what it has written. -/
structure Result (α : Type) where
  out : α
  next : ℕ
  writes : List Write

mutual

/-- `_deep_merge(base, override)` on objects; the identity of the base does not matter. -/
def mergeObj (next : ℕ) (base : Dict YamlKey Obj) : Obj → Except PyErr (Result Obj)
  | .dict _ items => do
    let copied := copyItems (next + 1) base
    let r ← mergeObjItems next copied.2 copied.1 items
    .ok ⟨.dict next r.out, r.next, r.writes⟩
  | .leaf x _ =>
    let copied := copyItems (next + 1) base
    if x.truthy then .error .attribute else .ok ⟨.dict next copied.1, copied.2, []⟩

/-- The loop, where `out` is the mapping `id`. -/
def mergeObjItems (id next : ℕ) (out : Dict YamlKey Obj) :
    List (YamlKey × Obj) → Except PyErr (Result (Dict YamlKey Obj))
  | [] => .ok ⟨out, next, []⟩
  | (k, v) :: items =>
    match v, Dict.getItem out k with
    | .dict _ _, some (.dict _ base) => do
      let merged ← mergeObj next base v
      let r ← mergeObjItems id merged.next (Dict.setItem out k merged.out) items
      .ok ⟨r.out, r.next, merged.writes ++ ⟨id, k, merged.out⟩ :: r.writes⟩
    | _, _ => do
      let r ← mergeObjItems id next (Dict.setItem out k v) items
      .ok ⟨r.out, r.next, ⟨id, k, v⟩ :: r.writes⟩

end

/-! ### The objects and their values -/

section Values

variable {d : Dict YamlKey Obj} {next : ℕ} {writes : List Write}

theorem getItem_treeItems (d : Dict YamlKey Obj) (k : YamlKey) :
    Dict.getItem (treeItems d) k = (Dict.getItem d k).map tree := by
  induction d with
  | nil => rfl
  | cons i d ih =>
    obtain ⟨k', v⟩ := i
    rw [treeItems, Dict.getItem, Dict.getItem, ih]
    split_ifs <;> rfl

theorem treeItems_setItem (d : Dict YamlKey Obj) (k : YamlKey) (v : Obj) :
    treeItems (Dict.setItem d k v) = Dict.setItem (treeItems d) k v.tree := by
  induction d with
  | nil => rfl
  | cons i d ih =>
    obtain ⟨k', v'⟩ := i
    rw [treeItems, Dict.setItem, Dict.setItem]
    split_ifs
    · rfl
    · rw [treeItems, ih]

theorem isDict_tree : ∀ v : Obj, v.tree.isDict = true ↔ ∃ id items, v = .dict id items
  | .leaf x h => by simp [tree, h]
  | .dict id items => by simp [tree, isDict]

mutual

/-- A copy has the same value, and its identities are new. -/
theorem deepcopy_spec (next : ℕ) : ∀ v : Obj, (v.deepcopy next).1.tree = v.tree ∧ next ≤ (v.deepcopy next).2
  | .leaf _ _ => ⟨rfl, le_rfl⟩
  | .dict _ items => by
    obtain ⟨htree, hle⟩ := copyItems_spec (next + 1) items
    exact ⟨congrArg Yaml.dict htree, (Nat.le_succ next).trans hle⟩

theorem copyItems_spec (next : ℕ) : ∀ items : List (YamlKey × Obj),
    treeItems (copyItems next items).1 = treeItems items ∧ next ≤ (copyItems next items).2
  | [] => ⟨rfl, le_rfl⟩
  | (k, v) :: items => by
    obtain ⟨hv, hle⟩ := deepcopy_spec next v
    obtain ⟨hrest, hle'⟩ := copyItems_spec (v.deepcopy next).2 items
    refine ⟨?_, hle.trans hle'⟩
    rw [copyItems, treeItems, treeItems, hv, hrest]

end

mutual

theorem replay_of_below (hw : ∀ w ∈ writes, next ≤ w.id) : ∀ v : Obj, v.Below next → v.replay writes = v
  | .leaf _ _, _ => rfl
  | .dict id items, h => by
    have hnone : writes.filter (·.id = id) = [] := by
      refine List.filter_eq_nil_iff.2 fun w hmem => ?_
      have hge := hw w hmem
      have hlt := h.1
      simp only [decide_eq_true_eq]
      omega
    rw [replay, hnone, replayItems_of_below hw items h.2]
    rfl

theorem replayItems_of_below (hw : ∀ w ∈ writes, next ≤ w.id) :
    ∀ items : List (YamlKey × Obj), BelowItems next items → replayItems writes items = items
  | [], _ => rfl
  | (k, v) :: items, h => by
    rw [replayItems, replay_of_below hw v h.1, replayItems_of_below hw items h.2]

end

mutual

/-- **The merge on objects** computes the merge of the values, and writes to new mappings only. -/
theorem mergeObj_tree (next : ℕ) (base : Dict YamlKey Obj) : ∀ override : Obj, override.tree.isDict = true →
    ∃ r m, mergeObj next base override = .ok r ∧ r.out.tree = .dict m ∧
      deepMerge (treeItems base) override.tree = .ok m ∧ next ≤ r.next ∧ ∀ w ∈ r.writes, next ≤ w.id
  | .leaf x h, hdict => by
    rw [tree, h] at hdict
    cases hdict
  | .dict id items, _ => by
    obtain ⟨htree, hle⟩ := copyItems_spec (next + 1) base
    obtain ⟨r, hr, hmerge, hnext, hw⟩ := mergeObjItems_tree next (copyItems (next + 1) base).2 (by omega)
      (copyItems (next + 1) base).1 items
    refine ⟨⟨.dict next r.out, r.next, r.writes⟩, treeItems r.out, ?_, rfl, ?_, ?_, hw⟩
    · rw [mergeObj, hr]
      rfl
    · rw [tree, deepMerge, ← htree]
      exact hmerge
    · exact ((Nat.le_succ next).trans hle).trans hnext

theorem mergeObjItems_tree (id next : ℕ) (hid : id ≤ next) (out : Dict YamlKey Obj) :
    ∀ items : List (YamlKey × Obj), ∃ r, mergeObjItems id next out items = .ok r ∧
      mergeItems (treeItems out) (treeItems items) = .ok (treeItems r.out) ∧ next ≤ r.next ∧ ∀ w ∈ r.writes, id ≤ w.id
  | [] => ⟨⟨out, next, []⟩, rfl, rfl, le_rfl, by simp⟩
  | (k, v) :: items => by
    by_cases hboth : ∃ i sub j base, v = .dict i sub ∧ Dict.getItem out k = some (.dict j base)
    · obtain ⟨i, sub, j, base, rfl, hold⟩ := hboth
      obtain ⟨merged, m, hmerged, htree, hmerge, hnext, hw⟩ := mergeObj_tree next base (.dict i sub) rfl
      obtain ⟨r, hr, hrest, hnext', hw'⟩ := mergeObjItems_tree id merged.next (hid.trans hnext)
        (Dict.setItem out k merged.out) items
      refine ⟨⟨r.out, r.next, merged.writes ++ ⟨id, k, merged.out⟩ :: r.writes⟩, ?_, ?_, hnext.trans hnext', ?_⟩
      · unfold mergeObjItems
        simp only [hold, hmerged]
        exact bind_eq_ok.2 ⟨merged, rfl, bind_eq_ok.2 ⟨r, hr, rfl⟩⟩
      · rw [treeItems_setItem, htree] at hrest
        rw [treeItems, tree]
        unfold mergeItems
        rw [tree] at hmerge
        simp only [getItem_treeItems, hold, Option.map_some, tree, hmerge]
        exact hrest
      · intro w hmem
        rcases List.mem_append.1 hmem with hmem | hmem
        · exact hid.trans (hw w hmem)
        · rcases List.mem_cons.1 hmem with rfl | hmem
          · exact le_rfl
          · exact hw' w hmem
    · obtain ⟨r, hr, hrest, hnext, hw⟩ := mergeObjItems_tree id next hid (Dict.setItem out k v) items
      refine ⟨⟨r.out, r.next, ⟨id, k, v⟩ :: r.writes⟩, ?_, ?_, hnext, ?_⟩
      · unfold mergeObjItems
        split
        · rename_i i sub j base hold
          exact absurd ⟨i, sub, j, base, rfl, hold⟩ hboth
        · rw [hr]
          rfl
      · rw [treeItems_setItem] at hrest
        rw [treeItems]
        unfold mergeItems
        split
        · rename_i sub base hv hold
          exfalso
          obtain ⟨i, items', rfl⟩ := (isDict_tree v).1 (by rw [hv]; rfl)
          rw [getItem_treeItems] at hold
          obtain ⟨o, ho, htree⟩ := Option.map_eq_some_iff.1 hold
          obtain ⟨j, base', rfl⟩ := (isDict_tree o).1 (by rw [htree]; rfl)
          exact hboth ⟨i, items', j, base', rfl, ho⟩
        · exact hrest
      · intro w hmem
        rcases List.mem_cons.1 hmem with rfl | hmem
        · exact le_rfl
        · exact hw w hmem

end

end Values

/-- What a merge comes to: the value of its result, and the objects that it leaves as they are. -/
structure MergeLaw (base override : Obj) (r : Result Obj) : Prop where
  mapping : r.out.tree.isDict = true
  paths : ∀ path, MergedAt base.tree override.tree r.out.tree path
  /-- Merging the same override into the result gives the same. -/
  again : ∀ id items next, r.out = .dict id items →
    ∃ r', mergeObj next items override = .ok r' ∧ r'.out.tree = r.out.tree
  /-- Merging an empty override gives the base. -/
  empty : ∀ id next items i, base = .dict i items →
    ∃ r', mergeObj next items (.dict id []) = .ok r' ∧ r'.out.tree = base.tree
  unmodified : base.replay r.writes = base ∧ override.replay r.writes = override

/-- **The law of the merge.**  For mappings in which keys are distinct and whose identities are in use, the merge has
at every path what it should have there, is the same when it is done again, is the base for an empty override, and
writes to neither of the two. -/
theorem deep_merge_law {next id : ℕ} {items : Dict YamlKey Obj} {override : Obj} (hdict : override.tree.isDict = true)
    (hd : Distinct override.tree) (hbase : (Obj.dict id items).Below next) (hoverride : override.Below next) :
    ∃ r, mergeObj next items override = .ok r ∧ MergeLaw (.dict id items) override r := by
  obtain ⟨r, m, hr, htree, hmerge, -, hw⟩ := mergeObj_tree next items override hdict
  obtain ⟨i, sub, rfl⟩ := (isDict_tree override).1 hdict
  rw [tree] at hd hmerge
  refine ⟨r, hr, by rw [htree]; rfl, fun path => ?_, ?_, ?_, ?_⟩
  · rw [htree]
    exact deepMerge_at hd hmerge path
  · intro j out next' hout
    obtain ⟨r', m', hr', htree', hmerge', -⟩ := mergeObj_tree next' out (.dict i sub) rfl
    refine ⟨r', hr', ?_⟩
    rw [hout, tree, Yaml.dict.injEq] at htree
    rw [tree, htree, deepMerge_again hd hmerge, Except.ok.injEq] at hmerge'
    rw [htree', hout, tree, htree, hmerge']
  · intro j next' out i' hout
    obtain ⟨-, rfl⟩ := Obj.dict.inj hout
    obtain ⟨r', m', hr', htree', hmerge', -⟩ := mergeObj_tree next' items (.dict j []) rfl
    refine ⟨r', hr', ?_⟩
    rw [tree, treeItems, deepMerge, mergeItems, Except.ok.injEq] at hmerge'
    rw [htree', tree, hmerge']
  · exact ⟨replay_of_below hw _ hbase, replay_of_below hw _ hoverride⟩

/-- One port over the section of another setting. -/
theorem deep_merge_law_port : ∃ r,
    mergeObj 10 [(.text ['a'], .dict 1 [(.text ['b'], .leaf (.int 1) rfl)])]
      (.dict 2 [(.text ['a'], .dict 3 [(.text ['c'], .leaf (.int 2) rfl)])]) = .ok r ∧
      MergeLaw (.dict 0 [(.text ['a'], .dict 1 [(.text ['b'], .leaf (.int 1) rfl)])])
        (.dict 2 [(.text ['a'], .dict 3 [(.text ['c'], .leaf (.int 2) rfl)])]) r := by
  refine deep_merge_law rfl (.dict (by simp [treeItems]) fun k v hv => ?_) ?_ ?_
  · obtain ⟨-, rfl⟩ := Dict.getItem_singleton.1 hv
    refine .dict (by simp [treeItems]) fun k v hv => ?_
    obtain ⟨-, rfl⟩ := Dict.getItem_singleton.1 hv
    exact .leaf rfl
  · simp [Below, BelowItems]
  · simp [Below, BelowItems]

end AisServer.Config
