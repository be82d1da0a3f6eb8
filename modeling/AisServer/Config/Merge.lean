import AisServer.Lib.Yaml

/-!
# Merging a configuration into the defaults

`_deep_merge` of `config.py`, on trees of any depth.

* `deepMerge_ok` — merging a mapping does not raise;
* `getItem_mergeItems` — what the merged mapping holds under a key;
* `covers_deepMerge` — the merged tree covers the base exactly when the tree that is merged into it fits.
-/

namespace AisServer.Config

open AisServer.Lib AisServer.Lib.Yaml

mutual

/-- `_deep_merge(base, override)` -/
def deepMerge (base : Dict YamlKey Yaml) : Yaml → Except PyErr (Dict YamlKey Yaml)
  | .dict items => mergeItems base items
  | override => if override.truthy then .error .attribute else .ok base

/-- The loop of `_deep_merge`. -/
def mergeItems (out : Dict YamlKey Yaml) : List (YamlKey × Yaml) → Except PyErr (Dict YamlKey Yaml)
  | [] => .ok out
  | (k, v) :: items =>
    match v, Dict.getItem out k with
    | .dict _, some (.dict base) => do mergeItems (Dict.setItem out k (.dict (← deepMerge base v))) items
    | _, _ => mergeItems (Dict.setItem out k v) items

end

example : deepMerge [(.text ['a'], .dict [(.text ['b'], .null)]), (.text ['c'], .null)]
    (.dict [(.text ['a'], .dict [(.text ['d'], .null)])]) =
    .ok [(.text ['a'], .dict [(.text ['b'], .null), (.text ['d'], .null)]), (.text ['c'], .null)] := rfl

/-- `x` is what the loop stores for `v` over the old value of the key. -/
inductive Merged : Option Yaml → Yaml → Yaml → Prop
  | both {base items out : Dict YamlKey Yaml} : deepMerge base (.dict items) = .ok out →
      Merged (some (.dict base)) (.dict items) (.dict out)
  | replaced {old : Option Yaml} {v : Yaml} : (v.isDict && old.any isDict) = false → Merged old v v

variable {base out out' items : Dict YamlKey Yaml} {k : YamlKey} {v x : Yaml}

/-- One pass of the loop. -/
theorem mergeItems_cons (h : mergeItems out ((k, v) :: items) = .ok out') :
    ∃ x, Merged (Dict.getItem out k) v x ∧ mergeItems (Dict.setItem out k x) items = .ok out' := by
  unfold mergeItems at h
  split at h
  · rename_i sub base hold
    obtain ⟨merged, hmerged, h⟩ := bind_eq_ok.1 h
    exact ⟨_, hold ▸ .both hmerged, h⟩
  · rename_i v _ _ hnot
    refine ⟨v, .replaced ?_, h⟩
    cases v with
    | dict sub =>
      rcases hold : Dict.getItem out k with _ | b
      · rfl
      · cases b with
        | dict base => exact absurd hold (hnot sub base rfl)
        | _ => rfl
    | _ => rfl

theorem getItem_mergeItems (k : YamlKey) (hnd : (items.map (·.1)).Nodup) (h : mergeItems base items = .ok out) :
    (Dict.getItem items k = none ∧ Dict.getItem out k = Dict.getItem base k) ∨
    ∃ v x, Dict.getItem items k = some v ∧ Dict.getItem out k = some x ∧
      Merged (Dict.getItem base k) v x := by
  induction items generalizing base with
  | nil =>
    cases h
    exact Or.inl ⟨rfl, rfl⟩
  | cons i items ih =>
    obtain ⟨k', v⟩ := i
    obtain ⟨hnot, hnd⟩ := List.nodup_cons.1 hnd
    obtain ⟨x, hx, h⟩ := mergeItems_cons h
    rw [Dict.getItem]
    by_cases hk : k' = k
    · subst hk
      have hnone := Dict.getItem_eq_none.2 hnot
      rcases ih hnd h with ⟨-, hout⟩ | ⟨v', x', hv', -⟩
      · rw [Dict.getItem_setItem, if_pos rfl] at hout
        exact Or.inr ⟨v, x, if_pos rfl, hout, hx⟩
      · rw [hnone] at hv'
        cases hv'
    · rw [if_neg hk]
      have := ih hnd h
      rwa [Dict.getItem_setItem, if_neg hk] at this

/-! ### Merging a mapping does not raise -/

mutual

theorem deepMerge_ok (base : Dict YamlKey Yaml) : ∀ override : Yaml, override.isDict = true →
    ∃ out, deepMerge base override = .ok out
  | .dict items, _ => by
    rw [deepMerge]
    exact mergeItems_ok base items

theorem mergeItems_ok (out : Dict YamlKey Yaml) : ∀ items : List (YamlKey × Yaml),
    ∃ out', mergeItems out items = .ok out'
  | [] => ⟨out, rfl⟩
  | (k, v) :: items => by
    unfold mergeItems
    split
    · rename_i sub base _
      obtain ⟨merged, hmerged⟩ := deepMerge_ok base (.dict sub) rfl
      rw [hmerged]
      exact mergeItems_ok _ items
    · exact mergeItems_ok _ items

end

/-! ### Merging keeps the base -/

/-- The merged tree covers the base exactly when the tree that is merged into it fits. -/
theorem covers_deepMerge (hd : Distinct (.dict items)) (h : deepMerge base (.dict items) = .ok out) :
    Covers (.dict out) (.dict base) ↔ Fits (.dict items) (.dict base) := by
  generalize hv : Yaml.dict items = override at hd
  induction hd generalizing base items out with
  | leaf hleaf =>
    subst hv
    cases hleaf
  | dict hnd _ ih =>
    cases hv
    rw [deepMerge] at h
    constructor
    · intro hc
      cases hc with
      | leaf hleaf => cases hleaf
      | dict _ hsub =>
        refine .dict fun k b v hb hv => ?_
        rcases getItem_mergeItems k hnd h with ⟨hnone, -⟩ | ⟨v', x, hv', hx, hm⟩
        · rw [hnone] at hv
          cases hv
        · obtain rfl : v' = v := Option.some.inj (hv'.symm.trans hv)
          have hc := hsub k b x hb hx
          rw [hb] at hm
          cases hm with
          | both hmerged => exact (ih k _ hv hmerged rfl).1 hc
          | replaced hnot =>
            by_cases hdict : b.isDict = true
            · cases hc with
              | leaf hleaf => exact .leaf hleaf
              | dict => simp [isDict] at hnot
            · exact .leaf (by simpa using hdict)
    · intro hf
      cases hf with
      | leaf hleaf => cases hleaf
      | dict hsub =>
        refine .dict (fun k hk => ?_) fun k b x hb hx => ?_
        · rcases getItem_mergeItems k hnd h with ⟨-, hout⟩ | ⟨_, x, -, hx, -⟩
          · rwa [hout]
          · simp [hx]
        · rcases getItem_mergeItems k hnd h with ⟨-, hout⟩ | ⟨v, x', hv, hx', hm⟩
          · obtain rfl : b = x := Option.some.inj (hb.symm.trans (hout.symm.trans hx))
            exact Covers.refl b
          · obtain rfl : x' = x := Option.some.inj (hx'.symm.trans hx)
            have hf := hsub k b v hb hv
            rw [hb] at hm
            cases hm with
            | both hmerged => exact (ih k _ hv hmerged rfl).2 hf
            | replaced hnot =>
              cases hf with
              | leaf hleaf => exact .leaf hleaf
              | dict => simp [isDict] at hnot

end AisServer.Config
