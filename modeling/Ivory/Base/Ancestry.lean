import Mathlib.Data.Finset.Card
import Mathlib.Data.List.Infix
import Mathlib.Tactic

/-!
# Walking to a root

Nodes are looked up by key, and a node names the key of its parent or is a
root.  `walk` follows the parents for at most `fuel` steps and stops where a
key is missing.  `Path k l` says that the walk from `k` reaches a root, and
that `l` is the keys on the way, `k` first.

* `Path.unique`: there is at most one path from a key.
* `Path.nodup`, `Path.length_le`: a path visits no key twice, so it is no longer
  than the number of keys.
* `map_fst_walk`: **with enough fuel the walk finds the path.**
* `Path.mono`: adding nodes, or changing what a node carries besides its parent,
  keeps every path.
* `Path.fork`: **two paths that meet stay together**, and share nothing above.
-/

namespace Ancestry

variable {κ ν : Type}

/-- Follow the parents for at most `fuel` steps. -/
def walk (get : κ → Option ν) (next : ν → Option κ) : ℕ → κ → List (κ × ν)
  | 0, _ => []
  | fuel + 1, k =>
    match get k with
    | none => []
    | some v =>
      (k, v) :: match next v with
        | none => []
        | some p => walk get next fuel p

/-- The keys from `k` to a root, `k` first. -/
inductive Path (get : κ → Option ν) (next : ν → Option κ) : κ → List κ → Prop
  | root {k : κ} {v : ν} : get k = some v → next v = none → Path get next k [k]
  | step {k p : κ} {v : ν} {l : List κ} : get k = some v → next v = some p →
      Path get next p l → Path get next k (k :: l)

variable {get : κ → Option ν} {next : ν → Option κ}

namespace Path

theorem exists_cons {k : κ} {l : List κ} (h : Path get next k l) : ∃ l', l = k :: l' := by
  cases h with
  | root _ _ => exact ⟨[], rfl⟩
  | step _ _ _ => exact ⟨_, rfl⟩

theorem mem_self {k : κ} {l : List κ} (h : Path get next k l) : k ∈ l := by
  obtain ⟨l', rfl⟩ := h.exists_cons
  exact List.mem_cons_self

theorem unique {k : κ} {l : List κ} (h : Path get next k l) :
    ∀ {l' : List κ}, Path get next k l' → l = l' := by
  induction h with
  | root hg hn =>
    intro l' h'
    cases h' with
    | root _ _ => rfl
    | step hg' hn' _ =>
      cases hg.symm.trans hg'
      rw [hn] at hn'
      cases hn'
  | step hg hn _ ih =>
    intro l' h'
    cases h' with
    | root hg' hn' =>
      cases hg.symm.trans hg'
      rw [hn] at hn'
      cases hn'
    | step hg' hn' hp' =>
      cases hg.symm.trans hg'
      cases hn.symm.trans hn'
      rw [ih hp']

theorem of_mem {k : κ} {l : List κ} (h : Path get next k l) :
    ∀ j ∈ l, ∃ l', Path get next j l' ∧ l' <:+ l := by
  induction h with
  | root hg hn =>
    intro j hj
    rw [List.mem_singleton.mp hj]
    exact ⟨_, .root hg hn, List.suffix_rfl⟩
  | step hg hn hp ih =>
    intro j hj
    rcases List.mem_cons.mp hj with rfl | hj
    · exact ⟨_, .step hg hn hp, List.suffix_rfl⟩
    · obtain ⟨l', hl', hs⟩ := ih j hj
      exact ⟨l', hl', hs.trans (List.suffix_cons _ _)⟩

theorem get_isSome {k : κ} {l : List κ} (h : Path get next k l) : ∃ v, get k = some v := by
  cases h with
  | root hg _ => exact ⟨_, hg⟩
  | step hg _ _ => exact ⟨_, hg⟩

/-- A path visits no key twice: a second visit would start a shorter path. -/
theorem nodup {k : κ} {l : List κ} (h : Path get next k l) : l.Nodup := by
  induction h with
  | root _ _ => exact List.nodup_singleton _
  | @step k p v l hg hn hp ih =>
    refine List.nodup_cons.mpr ⟨fun hk => ?_, ih⟩
    obtain ⟨l', hl', hs⟩ := hp.of_mem k hk
    have heq := hl'.unique (.step hg hn hp)
    have hle := hs.length_le
    rw [heq, List.length_cons] at hle
    omega

theorem length_le [DecidableEq κ] {k : κ} {l : List κ} (h : Path get next k l) {S : Finset κ}
    (hS : ∀ j v, get j = some v → j ∈ S) : l.length ≤ S.card := by
  rw [← List.toFinset_card_of_nodup h.nodup]
  refine Finset.card_le_card fun j hj => ?_
  obtain ⟨l', hl', -⟩ := h.of_mem j (List.mem_toFinset.mp hj)
  obtain ⟨v, hv⟩ := hl'.get_isSome
  exact hS j v hv

theorem mono {get' : κ → Option ν}
    (hsub : ∀ k v, get k = some v → ∃ v', get' k = some v' ∧ next v' = next v)
    {k : κ} {l : List κ} (h : Path get next k l) : Path get' next k l := by
  induction h with
  | root hg hn =>
    obtain ⟨v', hg', hn'⟩ := hsub _ _ hg
    exact .root hg' (hn'.trans hn)
  | step hg hn _ ih =>
    obtain ⟨v', hg', hn'⟩ := hsub _ _ hg
    exact .step hg' (hn'.trans hn) ih

/-! ### Where two paths meet -/

theorem exists_root {k : κ} {l : List κ} (h : Path get next k l) :
    ∃ r ∈ l, ∃ v, get r = some v ∧ next v = none := by
  induction h with
  | root hg hn => exact ⟨_, List.mem_singleton_self _, _, hg, hn⟩
  | step _ _ _ ih =>
    obtain ⟨r, hr, hroot⟩ := ih
    exact ⟨r, List.mem_cons_of_mem _ hr, hroot⟩

theorem of_append {k : κ} {rest : List κ} : ∀ {above : List κ} {b : κ},
    Path get next b (above ++ k :: rest) → Path get next k (k :: rest) := by
  intro above
  induction above with
  | nil =>
    intro b h
    obtain ⟨l', hl'⟩ := h.exists_cons
    cases hl'
    exact h
  | cons c above ih =>
    intro b h
    generalize hl : c :: above ++ k :: rest = l at h
    cases h with
    | root _ _ => simp at hl
    | step _ _ hp =>
      obtain ⟨-, rfl⟩ := List.cons.inj hl
      exact ih hp

theorem length_lt {j k : κ} {l l' : List κ} (h : Path get next k l) (h' : Path get next j l')
    (hj : j ∈ l) (hne : j ≠ k) : l'.length < l.length := by
  obtain ⟨l'', hl'', hs⟩ := h.of_mem j hj
  cases h'.unique hl''
  refine lt_of_le_of_ne hs.length_le fun hlen => hne ?_
  cases hs.eq_of_length hlen
  obtain ⟨t, rfl⟩ := h.exists_cons
  obtain ⟨t', ht'⟩ := h'.exists_cons
  cases ht'
  rfl

/-- **Two paths that meet stay together.**  Where the second path first meets the first one, both
go on in the same way, and above they have nothing in common. -/
theorem fork [DecidableEq κ] {a b k : κ} {la lb : List κ} (ha : Path get next a la)
    (hb : Path get next b lb) (hk : lb.find? (fun j => decide (j ∈ la)) = some k) :
    ∃ pa pb lk, Path get next k lk ∧ la = pa ++ lk ∧ lb = pb ++ lk
      ∧ (∀ j ∈ pa, j ∉ lb) ∧ ∀ j ∈ pb, j ∉ la := by
  obtain ⟨hka, pb, rest, rfl, hpb⟩ := List.find?_eq_some_iff_append.mp hk
  have hpb' : ∀ j ∈ pb, j ∉ la := fun j hj => by simpa using hpb j hj
  have hlk : Path get next k (k :: rest) := hb.of_append
  obtain ⟨lk, hlk', pa, rfl⟩ := ha.of_mem k (by simpa using hka)
  cases hlk.unique hlk'
  refine ⟨pa, pb, k :: rest, hlk, rfl, rfl, fun j hj hjb => ?_, hpb'⟩
  rcases List.mem_append.mp hjb with hjb | hjk
  · exact hpb' j hjb (List.mem_append_left _ hj)
  · exact (List.nodup_append.mp ha.nodup).2.2 j hj j hjk rfl

theorem exists_fork [DecidableEq κ] {a b : κ} {la lb : List κ} (ha : Path get next a la)
    (hb : Path get next b lb) (hroot : ∀ r r' v v', get r = some v → get r' = some v' →
      next v = none → next v' = none → r = r') :
    ∃ k, lb.find? (fun j => decide (j ∈ la)) = some k := by
  obtain ⟨r, hr, v, hv, hn⟩ := ha.exists_root
  obtain ⟨r', hr', v', hv', hn'⟩ := hb.exists_root
  obtain rfl := hroot r r' v v' hv hv' hn hn'
  exact Option.isSome_iff_exists.mp (List.find?_isSome.mpr ⟨r, hr', by simpa using hr⟩)

end Path

theorem get_of_mem_walk : ∀ (fuel : ℕ) (k : κ), ∀ e ∈ walk get next fuel k, get e.1 = some e.2 := by
  intro fuel
  induction fuel with
  | zero => intro k e he; cases he
  | succ fuel ih =>
    intro k e he
    rw [walk] at he
    split at he
    · cases he
    · next v hg =>
      rcases List.mem_cons.mp he with rfl | he
      · exact hg
      · split at he
        · cases he
        · exact ih _ e he

/-- **With enough fuel the walk finds the path.** -/
theorem map_fst_walk {k : κ} {l : List κ} (h : Path get next k l) :
    ∀ {fuel : ℕ}, l.length ≤ fuel → (walk get next fuel k).map Prod.fst = l := by
  induction h with
  | root hg hn =>
    intro fuel hf
    cases fuel with
    | zero => simp at hf
    | succ fuel => simp [walk, hg, hn]
  | step hg hn _ ih =>
    intro fuel hf
    cases fuel with
    | zero => simp at hf
    | succ fuel =>
      rw [List.length_cons] at hf
      simp [walk, hg, hn, ih (Nat.le_of_succ_le_succ hf)]

end Ancestry
