import Mathlib.Data.List.Chain
import Mathlib.Data.List.FinRange
import Mathlib.Data.List.Nodup

/-!
Paths in a list of edges, parallel edges being different ones. `links` says which
edge may follow which one. The paths that end in a given way are counted from
their ends: either nothing can come before the last edge, or the last edge is
known and the paths before it have been counted.
-/
namespace M3bp.EdgePath

variable {ε : Type} (edges : List ε) (links : ε → ε → Prop) (starts ends : ε → Prop)

/-- A path is given by the places of its edges. -/
structure IsPath (path : List (Fin edges.length)) : Prop where
  linked : path.IsChain fun e e' => links edges[e] edges[e']
  start : ∃ e ∈ path.head?, starts edges[e]
  finish : ∃ e ∈ path.getLast?, ends edges[e]

/-- There are exactly `k` paths. -/
def Counts (k : ℕ) : Prop :=
  ∃ paths : List (List (Fin edges.length)), paths.Nodup ∧
    (∀ path, path ∈ paths ↔ IsPath edges links starts ends path) ∧ paths.length = k

variable {edges links starts ends}

/-- The one member that is picked has one place. -/
theorem exists_place {l : List ε} {p : ε → Prop} [DecidablePred p] {a : ε}
    (h : l.filter p = [a]) :
    ∃ (i : ℕ) (hi : i < l.length), l[i] = a ∧ ∀ (j : ℕ) (hj : j < l.length), p l[j] ↔ j = i := by
  induction l with
  | nil => cases h
  | cons b l ih =>
    by_cases hb : p b
    · rw [List.filter_cons_of_pos (by simpa using hb)] at h
      obtain ⟨rfl, hnil⟩ := List.cons.inj h
      refine ⟨0, by simp, rfl, fun j hj => ?_⟩
      cases j with
      | zero => simp [hb]
      | succ j =>
        have hj' : j < l.length := by simpa using hj
        have hno := List.filter_eq_nil_iff.mp hnil l[j] (List.getElem_mem hj')
        simpa using hno
    · rw [List.filter_cons_of_neg (by simpa using hb)] at h
      obtain ⟨i, hi, hget, honly⟩ := ih h
      refine ⟨i + 1, by simpa using hi, by simpa using hget, fun j hj => ?_⟩
      cases j with
      | zero => simp [hb]
      | succ j => simpa using honly j (by simpa using hj)

/-- The last edge of a path and the edges before it. -/
theorem isPath_concat {path : List (Fin edges.length)} {e : Fin edges.length} (hne : path ≠ []) :
    IsPath edges links starts ends (path ++ [e]) ↔
      IsPath edges links starts (fun e' => links e' edges[e]) path ∧ ends edges[e] := by
  constructor
  · rintro ⟨hlinked, ⟨s, hs, hstart⟩, ⟨l, hl, hends⟩⟩
    rw [List.isChain_append] at hlinked
    rw [List.head?_append_of_ne_nil _ hne] at hs
    rw [List.getLast?_concat] at hl
    obtain rfl := Option.mem_some_iff.mp hl
    refine ⟨⟨hlinked.1, ⟨s, hs, hstart⟩, ?_⟩, hends⟩
    exact ⟨path.getLast hne, List.getLast?_eq_some_getLast hne,
      hlinked.2.2 _ (List.getLast?_eq_some_getLast hne) _ rfl⟩
  · rintro ⟨⟨hlinked, ⟨s, hs, hstart⟩, ⟨l, hl, hlink⟩⟩, hends⟩
    refine ⟨?_, ⟨s, by rwa [List.head?_append_of_ne_nil _ hne], hstart⟩,
      ⟨e, List.getLast?_concat, hends⟩⟩
    rw [List.isChain_append]
    refine ⟨hlinked, List.isChain_singleton _, fun x hx y hy => ?_⟩
    obtain rfl : l = x := Option.mem_unique hl hx
    obtain rfl : e = y := by simpa using hy
    exact hlink

theorem isPath_singleton {e : Fin edges.length} :
    IsPath edges links starts ends [e] ↔ starts edges[e] ∧ ends edges[e] := by
  constructor
  · rintro ⟨-, ⟨s, hs, hstart⟩, ⟨l, hl, hends⟩⟩
    obtain rfl := Option.mem_some_iff.mp hs
    obtain rfl := Option.mem_some_iff.mp hl
    exact ⟨hstart, hends⟩
  · rintro ⟨hstart, hends⟩
    exact ⟨List.isChain_singleton _, ⟨e, rfl, hstart⟩, ⟨e, rfl, hends⟩⟩

/-- No edge comes before the last one. -/
theorem counts_direct [DecidablePred starts] [DecidablePred ends]
    (h : ∀ e ∈ edges, ∀ e' ∈ edges, ends e' → ¬ links e e') :
    Counts edges links starts ends (edges.countP fun e => starts e ∧ ends e) := by
  let places := (List.finRange edges.length).filter fun e => starts edges[e] ∧ ends edges[e]
  have hnodup : (places.map fun e => [e]).Nodup :=
    (List.Nodup.filter _ (List.nodup_finRange _)).map fun a b hab => by simpa using hab
  refine ⟨places.map fun e => [e], hnodup, fun path => ?_, ?_⟩
  · constructor
    · intro hpath
      obtain ⟨e, he, rfl⟩ := List.mem_map.mp hpath
      rw [isPath_singleton]
      simpa [places] using he
    · intro hpath
      rcases List.eq_nil_or_concat path with rfl | ⟨before, e, rfl⟩
      · obtain ⟨e, he, -⟩ := hpath.start
        cases he
      · rw [List.concat_eq_append] at hpath ⊢
        rcases eq_or_ne before [] with rfl | hne
        · rw [List.nil_append, isPath_singleton] at hpath
          simpa [places] using hpath
        · obtain ⟨hbefore, hends⟩ := (isPath_concat hne).mp hpath
          obtain ⟨l, -, hlink⟩ := hbefore.finish
          exact absurd hlink (h _ (List.getElem_mem _) _ (List.getElem_mem _) hends)
  · have hmap : edges = (List.finRange edges.length).map fun e => edges[e] := by
      simp
    rw [List.length_map, ← List.countP_eq_length_filter]
    conv_rhs => rw [hmap]
    rw [List.countP_map]
    rfl

/-- Every path goes through the one edge `e`, which none starts with. -/
theorem counts_through {ends' : ε → Prop} {k : ℕ} (e : Fin edges.length)
    (hends : ∀ e' : Fin edges.length, ends edges[e'] ↔ e' = e) (hstart : ¬ starts edges[e])
    (hlinks : ∀ e' ∈ edges, links e' edges[e] ↔ ends' e')
    (h : Counts edges links starts ends' k) : Counts edges links starts ends k := by
  obtain ⟨paths, hnodup, hmem, hlength⟩ := h
  have hsame : ∀ path, IsPath edges links starts (fun e' => links e' edges[e]) path ↔
      IsPath edges links starts ends' path := by
    intro path
    refine ⟨fun hp => ⟨hp.linked, hp.start, ?_⟩, fun hp => ⟨hp.linked, hp.start, ?_⟩⟩
    · obtain ⟨l, hl, hlink⟩ := hp.finish
      exact ⟨l, hl, (hlinks _ (List.getElem_mem _)).mp hlink⟩
    · obtain ⟨l, hl, hlink⟩ := hp.finish
      exact ⟨l, hl, (hlinks _ (List.getElem_mem _)).mpr hlink⟩
  have hne : ∀ path ∈ paths, path ≠ [] := by
    rintro path hp rfl
    obtain ⟨a, ha, -⟩ := ((hmem []).mp hp).start
    cases ha
  refine ⟨paths.map fun path => path ++ [e], hnodup.map fun a b hab => by simpa using hab,
    fun path => ?_, by simpa using hlength⟩
  constructor
  · intro hp
    obtain ⟨before, hbefore, rfl⟩ := List.mem_map.mp hp
    rw [isPath_concat (hne before hbefore), hsame]
    exact ⟨(hmem before).mp hbefore, (hends e).mpr rfl⟩
  · intro hp
    rcases List.eq_nil_or_concat path with rfl | ⟨before, l, rfl⟩
    · obtain ⟨a, ha, -⟩ := hp.start
      cases ha
    · rw [List.concat_eq_append] at hp ⊢
      rcases eq_or_ne before [] with rfl | hbefore
      · obtain ⟨hs, hl⟩ := isPath_singleton.mp hp
        rw [(hends l).mp hl] at hs
        exact absurd hs hstart
      · obtain ⟨hpath, hl⟩ := (isPath_concat hbefore).mp hp
        obtain rfl := (hends l).mp hl
        exact List.mem_map.mpr ⟨before, (hmem before).mpr ((hsame before).mp hpath), rfl⟩

end M3bp.EdgePath
