import BlockTree.Proofs.Indexes
import Mathlib.Data.List.Find

/-! Stores in any state whose lookups and index of children belong to one list of links. That a
store is asked for children leaves it such a store, also where it keeps what it read at hand. -/

namespace BlockTree

/-- The links are found under the hashes of their blocks, and children are found under their
parent. Nothing is said of the fields of a link, nor of how the blocks hang together. -/
structure Catalogued {σ : Type} [Store σ] (s : σ) (stored : List Link) : Prop where
  nodup : (stored.map fun l => l.block.hash).Nodup
  getLink : ∀ hash, (Demand.call (.getLink hash)).reply s =
    .ok (stored.find? fun l => l.block.hash == hash)
  nextLinks : ∀ hash, ∃ children, (Demand.call (.nextLinks hash)).reply s = .ok children ∧
    children.Perm (stored.filter fun l => l.parentHash == hash)

namespace Catalogued

variable {σ : Type} [Store σ] {s : σ} {stored : List Link} {l : Link} {hash : Hash}

theorem reply_of_mem (h : Catalogued s stored) (hl : l ∈ stored) :
    (Demand.call (.getLink l.block.hash)).reply s = .ok (some l) := by
  rw [h.getLink]
  cases hf : stored.find? fun m => m.block.hash == l.block.hash with
  | none => simpa using List.find?_eq_none.mp hf l hl
  | some m =>
    have hm : m.block.hash = l.block.hash := by simpa using List.find?_some hf
    rw [List.inj_on_of_nodup_map h.nodup (List.mem_of_find?_eq_some hf) hl hm]

theorem ne_of_reply (h : Catalogued s stored)
    (hnone : (Demand.call (.getLink hash)).reply s = .ok none) (hl : l ∈ stored) :
    l.block.hash ≠ hash := by
  rintro rfl
  cases hnone.symm.trans (h.reply_of_mem hl)

end Catalogued

namespace Shelf

variable {s t : Shelf} {α β : Type}

/-- What a lookup finds, in the cache first. -/
def sight (s : Shelf) (hash : Hash) : Except Error (Option Link) :=
  match s.cache[hash.bytes]? with
  | some link => .ok (some link)
  | none => s.trees.find? (Key.link hash)

structure SameSight (s t : Shelf) : Prop where
  trees_eq : t.trees = s.trees
  sight_eq : ∀ hash, t.sight hash = s.sight hash

theorem SameSight.refl (s : Shelf) : s.SameSight s :=
  ⟨rfl, fun _ => rfl⟩

theorem SameSight.symm (h : s.SameSight t) : t.SameSight s :=
  ⟨h.trees_eq.symm, fun hash => (h.sight_eq hash).symm⟩

theorem SameSight.trans {u : Shelf} (h : s.SameSight t) (h' : t.SameSight u) : s.SameSight u :=
  ⟨h'.trees_eq.trans h.trees_eq, fun hash => (h'.sight_eq hash).trans (h.sight_eq hash)⟩

theorem said_load (s : Shelf) (hash : Hash) : said (load hash s) = s.sight hash := by
  unfold load sight
  cases s.cache[hash.bytes]? with
  | some link => rfl
  | none =>
    cases s.trees.find? (Key.link hash) with
    | error e => rfl
    | ok link? => cases link? <;> rfl

theorem sameSight_load (s : Shelf) (hash : Hash) : s.SameSight (left (load hash s)) := by
  unfold load
  cases hc : s.cache[hash.bytes]? with
  | some link => exact SameSight.refl s
  | none =>
    cases hf : s.trees.find? (Key.link hash) with
    | error e => exact SameSight.refl s
    | ok link? =>
      cases link? with
      | none => exact SameSight.refl s
      | some link =>
        by_cases hr : link.isResolved
        · -- What is put at hand is what the trees say.
          simp only [hr, if_true, left]
          refine ⟨rfl, fun k => ?_⟩
          unfold sight
          rw [Tree.getElem?_insert]
          by_cases he : hash = k
          · subst he
            simp [hc, hf]
          · have hne : hash.bytes ≠ k.bytes := fun hk => he (Key.link_inj.mp hk)
            rw [if_neg hne]
        · simp only [hr]
          exact SameSight.refl s

/-- It cannot tell shelves with the same sight apart, and leaves one behind. -/
def Impartial (act : StoreM Shelf α) : Prop :=
  ∀ s, s.SameSight (left (act s)) ∧ ∀ t, s.SameSight t → said (act t) = said (act s)

theorem impartial_pure (v : α) : Impartial (pure v) :=
  fun s => ⟨SameSight.refl s, fun _ _ => rfl⟩

theorem impartial_throw (e : Error) : Impartial (throw e : StoreM Shelf α) :=
  fun s => ⟨SameSight.refl s, fun _ _ => rfl⟩

theorem impartial_load (hash : Hash) : Impartial (load hash) :=
  fun s => ⟨sameSight_load s hash, fun t ht => by rw [said_load, said_load, ht.sight_eq]⟩

theorem Impartial.bind {act : StoreM Shelf α} {next : α → StoreM Shelf β} (hact : Impartial act)
    (hnext : ∀ v, Impartial (next v)) : Impartial (act >>= next) := by
  intro s
  obtain ⟨hkept, hsaid⟩ := hact s
  refine ⟨keeps_bind hkept fun v t ht => ht.trans (hnext v t).1, fun t ht => ?_⟩
  have hsame := hsaid t ht
  have hback := (hact t).1
  show said (EStateM.bind act next t) = said (EStateM.bind act next s)
  unfold EStateM.bind
  cases hs : act s with
  | error e u =>
    rw [hs] at hsame
    cases htry : act t with
    | error e' u' =>
      rw [htry] at hsame
      cases hsame
      rfl
    | ok v u' =>
      rw [htry] at hsame
      cases hsame
  | ok v u =>
    rw [hs] at hsame hkept
    obtain ⟨u', hu'⟩ : ∃ u', act t = .ok v u' := ⟨_, eq_ok_of_said hsame⟩
    rw [hu'] at hback ⊢
    have hu : u.SameSight u' := hkept.symm.trans (ht.trans hback)
    exact (hnext v u).2 u' hu

theorem impartial_loadChildren (hashes : List Hash) : Impartial (loadChildren hashes) := by
  induction hashes with
  | nil => exact impartial_pure []
  | cons hash hashes ih =>
    refine (impartial_load hash).bind fun link? => ?_
    cases link? with
    | none => exact impartial_throw _
    | some link => exact ih.bind fun links => impartial_pure _

theorem impartial_nextLinks (parent : Hash) : Impartial (answer (.nextLinks parent)) := by
  have hnow (s : Shelf) : answer (.nextLinks parent) s =
      (loadChildren (s.trees.childHashes parent) >>= fun links =>
        pure (links.mergeSort fun a b => a.seq ≤ b.seq)) s := rfl
  intro s
  have hsort := (impartial_loadChildren (s.trees.childHashes parent)).bind fun links =>
    impartial_pure (links.mergeSort fun a b => a.seq ≤ b.seq)
  refine ⟨(hsort s).1, fun t ht => ?_⟩
  rw [hnow, hnow, ht.trees_eq]
  exact (hsort s).2 t ht

end Shelf

namespace Backing

def Undisturbed : (b : Backing) → b.Contents → b.Contents → Prop
  | arena, a, a' => a' = a
  | pool, p, p' => p' = p
  | shelf, s, s' => Shelf.SameSight s s'

variable {b : Backing} {s t : b.Contents}

theorem Undisturbed.refl (s : b.Contents) : b.Undisturbed s s :=
  match b with
  | arena => rfl
  | pool => rfl
  | shelf => Shelf.SameSight.refl s

/-- Asking for children over and over changes no answer. -/
theorem Undisturbed.nextLinks (h : b.Undisturbed s t) (parent : Hash) :
    said (Store.answer (.nextLinks parent) t) = said (Store.answer (.nextLinks parent) s) ∧
      b.Undisturbed s (left (Store.answer (.nextLinks parent) t)) := by
  cases b with
  | arena =>
    obtain rfl : t = s := h
    exact ⟨rfl, rfl⟩
  | pool =>
    obtain rfl : t = s := h
    exact ⟨rfl, rfl⟩
  | shelf =>
    have hshelf : Shelf.SameSight s t := h
    exact ⟨(Shelf.impartial_nextLinks parent s).2 t h,
      hshelf.trans (Shelf.impartial_nextLinks parent t).1⟩

/-- What a lookup can find has one of as many keys as a walk may visit links. -/
theorem exists_keys (s : b.Contents) : ∃ keys : List Bytes, keys.length = Store.reach s ∧
    ∀ hash l, (Demand.call (.getLink hash)).reply s = .ok (some l) → hash.bytes ∈ keys := by
  cases b with
  | arena =>
    obtain ⟨a, rfl⟩ : ∃ a : Arena, a = s := ⟨s, rfl⟩
    refine ⟨a.links.map fun l => l.hash.bytes, List.length_map _, fun hash l hl => ?_⟩
    have hfind : a.find? hash = some l := Except.ok.inj hl
    obtain ⟨hmem, rfl⟩ := Arena.mem_of_find? hfind
    exact List.mem_map.mpr ⟨l, hmem, rfl⟩
  | pool =>
    obtain ⟨p, rfl⟩ : ∃ p : Pool, p = s := ⟨s, rfl⟩
    refine ⟨p.links.keys, Std.ExtTreeMap.length_keys, fun hash l hl => ?_⟩
    have hfind : p.find? hash = some l := Except.ok.inj hl
    rw [Std.ExtTreeMap.mem_keys]
    exact Std.ExtTreeMap.mem_iff_isSome_getElem?.mpr (Option.isSome_of_eq_some hfind)
  | shelf =>
    obtain ⟨s, rfl⟩ : ∃ s' : Shelf, s' = s := ⟨s, rfl⟩
    refine ⟨s.trees.links.keys ++ s.cache.keys, ?_, fun hash l hl => ?_⟩
    · rw [List.length_append, Std.ExtTreeMap.length_keys, Std.ExtTreeMap.length_keys]
      rfl
    · have hsight : s.sight hash = .ok (some l) := (s.said_load hash).symm.trans hl
      unfold Shelf.sight at hsight
      rw [List.mem_append, Std.ExtTreeMap.mem_keys, Std.ExtTreeMap.mem_keys,
        Std.ExtTreeMap.mem_iff_isSome_getElem?, Std.ExtTreeMap.mem_iff_isSome_getElem?]
      cases hc : s.cache[hash.bytes]? with
      | some link => exact .inr rfl
      | none =>
        rw [hc] at hsight
        cases hl : s.trees.links[Key.link hash]? with
        | none => simp [Trees.find?, hl] at hsight
        | some bs => exact .inl (Option.isSome_of_eq_some hl)

end Backing

theorem Catalogued.length_le_reach {b : Backing} {s : b.Contents} {stored : List Link}
    (h : Catalogued s stored) : stored.length ≤ Store.reach s := by
  obtain ⟨keys, hlen, hkeys⟩ := Backing.exists_keys s
  have hnodup : (stored.map fun l => l.block.hash.bytes).Nodup := by
    have hmap := h.nodup.map (f := Hash.bytes) fun h k he => Key.link_inj.mp he
    rwa [List.map_map] at hmap
  have hsub : (stored.map fun l => l.block.hash.bytes) ⊆ keys := by
    intro key hkey
    obtain ⟨l, hl, rfl⟩ := List.mem_map.mp hkey
    exact hkeys l.block.hash l (h.reply_of_mem hl)
  have hle := (List.subperm_of_subset hnodup hsub).length_le
  rwa [List.length_map, hlen] at hle

theorem Arena.catalogued {a : Arena} (hnodup : (a.links.map Link.hash).Nodup)
    (hhash : ∀ l ∈ a.links, l.hash = l.block.hash) :
    Catalogued (σ := Backing.arena.Contents) a a.links where
  nodup := by rwa [← List.map_congr_left hhash]
  getLink hash := by
    have hfind : a.find? hash = a.links.find? fun l => l.block.hash == hash := by
      refine List.find?_congr fun l hl => ?_
      rw [hhash l hl]
    exact congrArg Except.ok hfind
  nextLinks hash := ⟨a.children hash, rfl, List.Perm.refl _⟩

end BlockTree
