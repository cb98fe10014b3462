import Hamn.Guest.Evidence

/-!
# EvidencePublish — both names or none

* `Others`, `Others.now`: what the others may change.
* `Tracked`: exactly these links of the publication are there; `Safe`: what holds at every moment.
* `publishStaged_spec`, `removeOwnedLinks_spec`, `finish_spec`: the parts.
* `evidencePublish_all_or_nothing`: the publication.
-/

open Bytes Crash
open Proc (attempt fail)

namespace Hamn.Evidence

open StrictJson
open SizeGate (Failure imageFail imageFailErrno imageLowerHex)

/-! ## The others -/

def Link.Own : Link → Prop
  | .foreign _ => False
  | .image => True
  | .sidecar => True

/-- The entries that are not ours are those that the others have there. -/
def Agrees (w : World) : Prop := ∀ name id, w.entries name = some (.foreign id) ↔ (name, id) ∈ w.foreign

/-- What may have happened when only the others have acted. -/
structure Others (w w' : World) : Prop where
  own : ∀ name link, link.Own → (w'.entries name = some link ↔ w.entries name = some link)
  agrees : Agrees w → Agrees w'
  staged : w'.stagedImage = w.stagedImage ∧ w'.stagedSidecar = w.stagedSidecar
  image : w'.image = w.image
  sidecar : w'.sidecar = w.sidecar
  links : w'.links = w.links
  unremoved : w'.unremoved = w.unremoved

theorem Others.refl (w : World) : Others w w := ⟨fun _ _ _ => Iff.rfl, fun h => h, ⟨rfl, rfl⟩, rfl, rfl, rfl, rfl⟩

theorem Others.trans {w1 w2 w3 : World} (h : Others w1 w2) (h' : Others w2 w3) : Others w1 w3 where
  own name link hown := (h'.own name link hown).trans (h.own name link hown)
  agrees ha := h'.agrees (h.agrees ha)
  staged := ⟨h'.staged.1.trans h.staged.1, h'.staged.2.trans h.staged.2⟩
  image := h'.image.trans h.image
  sidecar := h'.sidecar.trans h.sidecar
  links := h'.links.trans h.links
  unremoved := h'.unremoved.trans h.unremoved

/-- An entry of the others changes, from `old` to `new`. -/
theorem Others.update {w : World} {name : String} {old new : Option Link} {foreign : List (String × ℕ)}
    (hold : w.entries name = old) (hown : ∀ link, link.Own → old ≠ some link ∧ new ≠ some link)
    (hagrees : Agrees w → Agrees { w with entries := Function.update w.entries name new, foreign }) :
    Others w { w with entries := Function.update w.entries name new, foreign } := by
  refine ⟨fun name' link hlink => ?_, hagrees, ⟨rfl, rfl⟩, rfl, rfl, rfl, rfl⟩
  dsimp only
  by_cases hname : name' = name
  · subst hname
    rw [Function.update_self, hold]
    exact ⟨fun h => absurd h (hown link hlink).2, fun h => absurd h (hown link hlink).1⟩
  · rw [Function.update_of_ne hname]

theorem Others.event (e : Event) (w : World) : Others w (e.apply w) := by
  have hnone : ∀ link : Link, link.Own → (none : Option Link) ≠ some link := fun _ _ h => by cases h
  have hforeign : ∀ (id : ℕ) (link : Link), link.Own → some (Link.foreign id) ≠ some link := by
    intro id link hlink h
    cases Option.some.inj h
    exact hlink
  cases e with
  | create name id =>
    unfold Event.apply
    cases hentry : w.entries name with
    | some _ => simpa only [hentry] using Others.refl w
    | none =>
      simp only [hentry]
      refine Others.update hentry (fun link h => ⟨hnone link h, hforeign id link h⟩) fun ha name' id' => ?_
      dsimp only
      rw [List.mem_cons, Prod.mk.injEq]
      by_cases hname : name' = name
      · subst hname
        have hnot : (name', id') ∉ w.foreign := fun hmem => by
          rw [(ha name' id').mpr hmem] at hentry
          cases hentry
        rw [Function.update_self, Option.some.injEq, Link.foreign.injEq]
        exact ⟨fun h => .inl ⟨rfl, h.symm⟩, fun h => (h.resolve_right hnot).2.symm⟩
      · rw [Function.update_of_ne hname, ha name' id']
        exact ⟨.inr, fun h => h.resolve_left fun h => hname h.1⟩
  | remove name =>
    unfold Event.apply
    dsimp only
    split
    · next id hentry =>
      refine Others.update hentry (fun link h => ⟨hforeign id link h, hnone link h⟩) fun ha name' id' => ?_
      dsimp only
      rw [List.mem_filter, decide_eq_true_eq]
      by_cases hname : name' = name
      · subst hname
        rw [Function.update_self]
        exact ⟨(fun h => by cases h), fun h => absurd rfl h.2⟩
      · rw [Function.update_of_ne hname, ha name' id']
        exact ⟨fun h => ⟨h, hname⟩, fun h => h.1⟩
    · exact Others.refl w

theorem Others.now (c : Cell) (w : World) : Others w (c.now w) := by
  unfold Cell.now
  induction c.events generalizing w with
  | nil => exact Others.refl w
  | cons e events ih => exact (Others.event e w).trans (ih (e.apply w))

/-! ## Links -/

/-- The links that the process makes, the last one first. -/
def OutputPaths.all (paths : OutputPaths) : List (String × Link) :=
  [(paths.name, .image), (paths.sidecarName, .sidecar)]

/-- Exactly these links are there. -/
structure Tracked (paths : OutputPaths) (made : List (String × Link)) (w : World) : Prop where
  agrees : Agrees w
  suffix : made <:+ paths.all
  links : w.links = made
  own : ∀ name link, link.Own → (w.entries name = some link ↔ (name, link) ∈ made)
  removed : w.unremoved = false

/-- What holds at every moment: an image of ours has its sidecar beside it, unless the cleanup has failed. -/
structure Safe (paths : OutputPaths) (w : World) : Prop where
  agrees : Agrees w
  image : ∀ name, w.entries name = some .image →
    name = paths.name ∧ (w.unremoved = true ∨ w.entries paths.sidecarName = some .sidecar)
  sidecar : ∀ name, w.entries name = some .sidecar → name = paths.sidecarName

section Links

variable {paths : OutputPaths} {made : List (String × Link)} {w w' : World}

theorem sidecarName_ne (paths : OutputPaths) : paths.sidecarName ≠ paths.name := by
  intro h
  have hlength := congrArg String.length h
  unfold OutputPaths.sidecarName at hlength
  rw [String.length_append] at hlength
  have hsuffix : String.length ".sha256" = 7 := by decide
  omega

theorem Tracked.others (h : Others w w') (hw : Tracked paths made w) : Tracked paths made w' :=
  ⟨h.agrees hw.agrees, hw.suffix, h.links.trans hw.links,
    fun name link hlink => (h.own name link hlink).trans (hw.own name link hlink), h.unremoved.trans hw.removed⟩

theorem mem_all {x : String × Link} (h : x ∈ paths.all) :
    x = (paths.name, .image) ∨ x = (paths.sidecarName, .sidecar) := by
  unfold OutputPaths.all at h
  simpa using h

/-- An image comes with the sidecar after it. -/
theorem sidecar_mem (hsuffix : made <:+ paths.all) {name : String} (h : (name, Link.image) ∈ made) :
    (paths.sidecarName, Link.sidecar) ∈ made := by
  unfold OutputPaths.all at hsuffix
  rw [List.suffix_cons_iff, List.suffix_cons_iff, List.suffix_nil] at hsuffix
  rcases hsuffix with rfl | rfl | rfl
  · exact List.mem_cons_of_mem _ List.mem_cons_self
  · simp at h
  · exact absurd h List.not_mem_nil

/-- Exactly these links are there, unless the cleanup has failed; and there is no other link in any case. -/
structure Removing (paths : OutputPaths) (made : List (String × Link)) (w : World) : Prop where
  agrees : Agrees w
  suffix : made <:+ paths.all
  all : ∀ name link, link.Own → w.entries name = some link → (name, link) ∈ paths.all
  own : w.unremoved = true ∨ ∀ name link, link.Own → (w.entries name = some link ↔ (name, link) ∈ made)

theorem Tracked.removing (hw : Tracked paths made w) : Removing paths made w :=
  ⟨hw.agrees, hw.suffix, fun name link hlink h => hw.suffix.subset ((hw.own name link hlink).mp h), .inr hw.own⟩

theorem Removing.safe (hw : Removing paths made w) : Safe paths w := by
  refine ⟨hw.agrees, fun name h => ⟨?_, ?_⟩, fun name h => ?_⟩
  · rcases mem_all (hw.all name .image trivial h) with h | h <;> cases h
    rfl
  · refine hw.own.imp_right fun hown => ?_
    exact (hown _ .sidecar trivial).mpr (sidecar_mem hw.suffix ((hown name .image trivial).mp h))
  · rcases mem_all (hw.all name .sidecar trivial h) with h | h <;> cases h
    rfl

theorem Tracked.safe (hw : Tracked paths made w) : Safe paths w := hw.removing.safe

theorem Removing.others (h : Others w w') (hw : Removing paths made w) : Removing paths made w' := by
  refine ⟨h.agrees hw.agrees, hw.suffix, fun name link hlink hentry => ?_, ?_⟩
  · exact hw.all name link hlink ((h.own name link hlink).mp hentry)
  · rw [h.unremoved]
    exact hw.own.imp_right fun hown name link hlink => (h.own name link hlink).trans (hown name link hlink)

end Links

/-! ## Steps -/

section Steps

variable {paths : OutputPaths} {made : List (String × Link)} {w : World} {α : Type}

/-- A process that fails with exactly some of its links there. -/
def parted (paths : OutputPaths) (ok : α → World → Prop) : Post World Failure α :=
  ⟨ok, fun _ w => ∃ made, Tracked paths made w, Safe paths⟩

theorem call_spec {f : Cell → World → Except Failure α × World} {ok : α → World → Prop} (hw : Tracked paths made w)
    (hok : ∀ c w1 a w2, Others w w1 → f c w1 = (.ok a, w2) → ok a w2)
    (herr : ∀ c w1 e w2, f c w1 = (.error e, w2) → w2 = w1) : wp (call f) (parted paths ok) w := by
  refine wp_call Others.now hw.safe hok fun c w1 e w2 h he => ⟨made, ?_⟩
  rw [herr c w1 e w2 he]
  exact hw.others h

/-- A call that only may fail. -/
theorem check_spec {f : Cell → World → Except Failure α × World} {ok : α → World → Prop} (hw : Tracked paths made w)
    (hf : ∀ c w1, (f c w1).2 = w1) (hok : ∀ c w1 a, Others w w1 → (f c w1).1 = .ok a → ok a w1) :
    wp (call f) (parted paths ok) w := by
  refine call_spec hw (fun c w1 a w2 h he => ?_) fun c w1 e w2 he => ?_
  · obtain rfl := (hf c w1).symm.trans (congrArg Prod.snd he)
    exact hok c _ a h (congrArg Prod.fst he)
  · exact (congrArg Prod.snd he).symm.trans (hf c w1)

theorem perform_spec {what path : String} {f : World → World} {ok : Unit → World → Prop} (hw : Tracked paths made w)
    (hok : ∀ w1, Others w w1 → ok () (f w1)) : wp (perform what path f) (parted paths ok) w := by
  refine call_spec hw (fun c w1 a w2 h he => ?_) fun c w1 e w2 he => ?_
  · cases hfault : c.fault with
    | some reason => rw [hfault] at he; cases he
    | none =>
      rw [hfault] at he
      obtain rfl := congrArg Prod.snd he
      exact hok w1 h
  · cases hfault : c.fault with
    | some reason => rw [hfault] at he; exact (congrArg Prod.snd he).symm
    | none => rw [hfault] at he; cases he

/-- A change of the stage. -/
theorem Tracked.stage (hw : Tracked paths made w) {image sidecar : Bytes} {a b : Bool} :
    Tracked paths made { w with image, sidecar, stagedImage := a, stagedSidecar := b } :=
  ⟨hw.agrees, hw.suffix, hw.links, hw.own, hw.removed⟩

/-- The chunks that were read are in the stage and in the context. -/
def Copied (chunks : List Bytes) (context : Digest.Context) (w : World) : Prop :=
  context = chunks.foldl Digest.sha256Update (Digest.sha256Init Digest.blank) ∧ w.image = chunks.flatten

theorem copyImage_spec {source stage : String} : ∀ (reads : List (Option Bytes)) (chunks : List Bytes)
    {context : Digest.Context} {w : World}, Tracked paths made w → Copied chunks context w →
    wp (copyImage source stage reads context)
      (parted paths fun context w => Tracked paths made w ∧ ∃ chunks, Copied chunks context w) w
  | [], chunks, context, w, hw, hcopied => wp_pure ⟨hw, chunks, hcopied⟩
  | some [] :: _, chunks, context, w, hw, hcopied => wp_pure ⟨hw, chunks, hcopied⟩
  | none :: _, chunks, context, w, hw, hcopied =>
    check_spec hw (fun _ _ => rfl) fun c w1 a _ h => by cases h
  | some (byte :: bytes) :: reads, chunks, context, w, hw, hcopied => by
    have hwrite : wp (perform "cannot write baseline stage" stage fun w => { w with image := w.image ++ byte :: bytes })
        (parted paths fun _ w' => Tracked paths made w' ∧
          Copied (chunks ++ [byte :: bytes]) (Digest.sha256Update context (byte :: bytes)) w') w := by
      refine perform_spec hw fun w1 h => ⟨(hw.others h).stage, ?_, ?_⟩
      · rw [List.foldl_append, List.foldl_cons, List.foldl_nil, ← hcopied.1]
      · show w1.image ++ byte :: bytes = _
        rw [h.image, hcopied.2, List.flatten_append, List.flatten_singleton]
    refine hwrite.seq (fun _ w1 h1 => ?_) (fun _ _ h => h) fun _ h => h
    exact copyImage_spec reads _ h1.1 h1.2

theorem publishLink_spec {name : String} {link : Link} {ok : Unit → World → Prop} (hw : Tracked paths made w)
    (hlink : link.Own) (hsuffix : (name, link) :: made <:+ paths.all)
    (hok : ∀ w1 w2, Others w w1 → w2.image = w1.image → w2.sidecar = w1.sidecar →
      Tracked paths ((name, link) :: made) w2 → ok () w2) :
    wp (publishLink paths name link) (parted paths ok) w := by
  refine call_spec hw (fun c w1 a w2 h he => ?_) fun c w1 e w2 he => ?_
  · have hw1 := hw.others h
    dsimp only at he
    cases hentry : w1.entries name with
    | some _ => rw [hentry] at he; cases he
    | none =>
      rw [hentry] at he
      cases hfault : c.fault with
      | some reason => rw [hfault] at he; cases he
      | none =>
        rw [hfault] at he
        obtain rfl := congrArg Prod.snd he
        refine hok w1 _ h rfl rfl ⟨fun name' id => ?_, hsuffix, congrArg ((name, link) :: ·) hw1.links,
          fun name' link' hlink' => ?_, hw1.removed⟩
        · by_cases hname : name' = name
          · subst hname
            have hnot : (name', id) ∉ w1.foreign := fun hmem => by
              rw [(hw1.agrees name' id).mpr hmem] at hentry
              cases hentry
            dsimp only
            rw [Function.update_self, Option.some.injEq]
            refine ⟨fun h => ?_, fun h => absurd h hnot⟩
            rw [h] at hlink
            exact hlink.elim
          · dsimp only
            rw [Function.update_of_ne hname]
            exact hw1.agrees name' id
        · dsimp only
          rw [List.mem_cons, Prod.mk.injEq]
          by_cases hname : name' = name
          · subst hname
            have hnot : (name', link') ∉ made := fun hmem => by
              rw [(hw1.own name' link' hlink').mpr hmem] at hentry
              cases hentry
            rw [Function.update_self, Option.some.injEq]
            exact ⟨fun h => .inl ⟨rfl, h.symm⟩, fun h => (h.resolve_right hnot).2.symm⟩
          · rw [Function.update_of_ne hname, hw1.own name' link' hlink']
            exact ⟨.inr, fun h => h.resolve_left fun h => hname h.1⟩
  · dsimp only at he
    cases hentry : w1.entries name with
    | some _ => rw [hentry] at he; exact (congrArg Prod.snd he).symm
    | none =>
      rw [hentry] at he
      cases hfault : c.fault with
      | some reason => rw [hfault] at he; exact (congrArg Prod.snd he).symm
      | none => rw [hfault] at he; cases he

/-! ## The cleanup -/

theorem Removing.weaken {x : String × Link} (hw : Removing paths (x :: made) w)
    (h : w.unremoved = true ∨ w.entries x.1 ≠ some x.2) : Removing paths made w := by
  refine ⟨hw.agrees, (List.suffix_cons x made).trans hw.suffix, hw.all, ?_⟩
  rcases h with h | h
  · exact .inl h
  refine hw.own.imp_right fun hown name link hlink => ?_
  rw [hown name link hlink, List.mem_cons]
  refine ⟨fun hmem => hmem.resolve_left ?_, .inr⟩
  rintro rfl
  exact h ((hown name link hlink).mpr List.mem_cons_self)

/-- Each name is there once. -/
theorem not_mem_of_suffix {name : String} {link : Link} (hsuffix : (name, link) :: made <:+ paths.all) (link' : Link) :
    (name, link') ∉ made := by
  intro hmem
  unfold OutputPaths.all at hsuffix
  rw [List.suffix_cons_iff, List.suffix_cons_iff, List.suffix_nil] at hsuffix
  rcases hsuffix with h | h | h
  · obtain ⟨hx, rfl⟩ := List.cons.inj h
    rw [List.mem_singleton, Prod.mk.injEq] at hmem
    exact sidecarName_ne paths (hmem.1.symm.trans (congrArg Prod.fst hx))
  · obtain ⟨-, rfl⟩ := List.cons.inj h
    exact absurd hmem List.not_mem_nil
  · cases h

theorem own_of_suffix {name : String} {link : Link} (hsuffix : (name, link) :: made <:+ paths.all) : link.Own := by
  rcases mem_all (hsuffix.subset List.mem_cons_self) with h | h <;> cases h <;> trivial

/-- The first of the links goes. -/
theorem Removing.remove {name : String} {link : Link} (hw : Removing paths ((name, link) :: made) w)
    (hentry : w.entries name = some link) :
    Removing paths made { w with entries := Function.update w.entries name none } := by
  have hlink := own_of_suffix hw.suffix
  refine ⟨fun name' id => ?_, (List.suffix_cons _ made).trans hw.suffix, fun name' link' hlink' h => ?_,
    hw.own.imp_right fun hown name' link' hlink' => ?_⟩
  · dsimp only
    by_cases hname : name' = name
    · subst hname
      rw [Function.update_self, ← hw.agrees name' id, hentry, Option.some.injEq]
      refine ⟨(fun h => by cases h), fun h => ?_⟩
      rw [h] at hlink
      exact hlink.elim
    · rw [Function.update_of_ne hname]
      exact hw.agrees name' id
  · dsimp only at h
    by_cases hname : name' = name
    · subst hname
      rw [Function.update_self] at h
      cases h
    · rw [Function.update_of_ne hname] at h
      exact hw.all name' link' hlink' h
  · dsimp only
    by_cases hname : name' = name
    · subst hname
      rw [Function.update_self]
      exact ⟨(fun h => by cases h), fun h => absurd h (not_mem_of_suffix hw.suffix link')⟩
    · rw [Function.update_of_ne hname, hown name' link' hlink', List.mem_cons]
      exact ⟨fun h => h.resolve_left fun h => hname (congrArg Prod.fst h), .inr⟩

theorem Removing.failed {x : String × Link} (hw : Removing paths (x :: made) w) :
    Removing paths made { w with unremoved := true } :=
  ⟨hw.agrees, (List.suffix_cons x made).trans hw.suffix, hw.all, .inl rfl⟩

theorem removeOwnedLinks_spec : ∀ (made : List (String × Link)) {w : World}, Removing paths made w →
    wp (removeOwnedLinks made)
      (⟨fun _ w => Removing paths [] w, fun _ _ => False, Safe paths⟩ : Post World Failure Unit) w
  | [], w, hw => wp_pure hw
  | (name, link) :: made, w, hw => by
    have hlink := own_of_suffix hw.suffix
    rw [removeOwnedLinks]
    refine wp.seq (P := ⟨fun owned w1 =>
        (owned = true → Removing paths ((name, link) :: made) w1 ∧ w1.entries name = some link) ∧
          (owned = false → Removing paths made w1), fun _ _ => False, Safe paths⟩)
      ?_ (fun owned w1 h1 => ?_) (fun _ _ h => h.elim) fun _ h => h
    · -- the look whether the name is still the link of this publication
      refine wp_call Others.now hw.safe (fun c w1 a w2 h he => ?_) fun c w1 e w2 h he => ?_
      · have hw1 := hw.others h
        cases hfault : c.fault with
        | some reason =>
          rw [hfault] at he
          cases he
          exact ⟨(fun h => by cases h), fun _ => hw1.failed⟩
        | none =>
          rw [hfault] at he
          cases he
          exact ⟨fun h => ⟨hw1, of_decide_eq_true h⟩, fun h => hw1.weaken (.inr (of_decide_eq_false h))⟩
      · cases hfault : c.fault with
        | some reason => rw [hfault] at he; cases he
        | none => rw [hfault] at he; cases he
    cases owned with
    | true =>
      obtain ⟨hw1, hentry⟩ := h1.1 rfl
      refine wp.seq (P := ⟨fun _ w => Removing paths made w, fun _ _ => False, Safe paths⟩)
        ?_ (fun _ w2 h2 => removeOwnedLinks_spec made h2) (fun _ _ h => h.elim) fun _ h => h
      refine wp_call Others.now hw1.safe (fun c w2 a w3 h he => ?_) fun c w2 e w3 h he => ?_
      · have hw2 := hw1.others h
        cases hfault : c.fault with
        | some reason =>
          rw [hfault] at he
          cases he
          exact hw2.failed
        | none =>
          rw [hfault] at he
          cases he
          exact hw2.remove ((h.own name link hlink).mpr hentry)
      · cases hfault : c.fault with
        | some reason => rw [hfault] at he; cases he
        | none => rw [hfault] at he; cases he
    | false => exact removeOwnedLinks_spec made (h1.2 rfl)

end Steps

/-! ## Publication -/

section Publication

variable {paths : OutputPaths} {made : List (String × Link)} {w : World} {α β : Type}

theorem parted_then {m : Op α} {f : α → Op β} {ok : α → World → Prop} {ok' : β → World → Prop}
    (hm : wp m (parted paths ok) w) (hf : ∀ a w', ok a w' → wp (f a) (parted paths ok') w') :
    wp (m >>= f) (parted paths ok') w :=
  hm.seq hf (fun _ _ h => h) fun _ h => h

/-- The staged image is what the report expects. -/
structure Checked (size : ℤ) (expected : Bytes) (w : World) : Prop where
  size : (w.image.length : ℤ) = size
  digest : w.image.length < 2 ^ 61 → Sha2.hex (Sha2.sha256 w.image) = expected

theorem Checked.of_copied {chunks : List Bytes} {context : Digest.Context} {size : ℤ} {expected : Bytes}
    (h : Copied chunks context w) (hsize : (w.image.length : ℤ) = size)
    (hdigest : (Digest.sha256Hex (Digest.sha256Final context).1).takeWhile (· ≠ 0) = expected) :
    Checked size expected w := by
  refine ⟨hsize, fun hlength => ?_⟩
  obtain ⟨hcontext, himage⟩ := h
  obtain ⟨habsorbed, htotal⟩ := Digest.absorbed_updates Digest.blank chunks
  rw [← hcontext, ← himage] at habsorbed htotal
  rw [← hdigest, SizeGate.takeWhile_sha256Hex, (habsorbed.final htotal hlength).1]

/-- The text of the sidecar. -/
def sidecarText (expected : Bytes) (name : String) : Bytes := expected ++ ascii "  " ++ Utf8.text name.toList ++ [10]

/-- The image and the sidecar under both names. -/
structure Published (paths : OutputPaths) (size : ℤ) (expected : Bytes) (w : World) : Prop where
  tracked : Tracked paths paths.all w
  checked : Checked size expected w
  sidecar : w.sidecar = sidecarText expected paths.name

/-- The sidecar so far. -/
structure Staged (paths : OutputPaths) (size : ℤ) (expected sidecar : Bytes) (w : World) : Prop where
  tracked : Tracked paths [] w
  checked : Checked size expected w
  sidecar : w.sidecar = sidecar

theorem Staged.others {size : ℤ} {expected sidecar : Bytes} {w' : World} (h : Others w w')
    (hw : Staged paths size expected sidecar w) : Staged paths size expected sidecar w' :=
  ⟨hw.tracked.others h, ⟨h.image ▸ hw.checked.size, h.image ▸ hw.checked.digest⟩, h.sidecar.trans hw.sidecar⟩

theorem writeSidecar_spec {checksum : String} {size : ℤ} {expected sidecar bytes : Bytes}
    (hw : Staged paths size expected sidecar w) :
    wp (writeSidecar checksum bytes) (parted paths fun _ w' => Staged paths size expected (sidecar ++ bytes) w') w := by
  refine perform_spec hw.tracked fun w1 h => ?_
  have hw1 := hw.others h
  exact ⟨hw1.tracked.stage, ⟨hw1.checked.size, hw1.checked.digest⟩, congrArg (· ++ bytes) hw1.sidecar⟩

theorem publishStaged_spec {source stageDirectory : String} {size : ℤ} {expected : Bytes} {reads : List (Option Bytes)}
    (hw : Tracked paths [] w) :
    wp (publishStaged paths source stageDirectory size expected reads)
      (parted paths fun _ w' => Published paths size expected w') w := by
  have hid : ∀ {what path : String} {w : World}, Tracked paths [] w →
      wp (perform what path id) (parted paths fun _ w' => Tracked paths [] w' ∧ Others w w') w :=
    fun hw => perform_spec hw fun w1 h => ⟨hw.others h, h⟩
  have hstaged : ∀ {what path : String} {sidecar : Bytes} {w : World}, Staged paths size expected sidecar w →
      wp (perform what path id) (parted paths fun _ w' => Staged paths size expected sidecar w') w :=
    fun hw => perform_spec hw.tracked fun w1 h => hw.others h
  have hempty : ∀ {what path : String} {w : World}, Tracked paths [] w ∧ w.image = [] →
      wp (perform what path id) (parted paths fun _ w' => Tracked paths [] w' ∧ w'.image = []) w :=
    fun hw => perform_spec hw.1 fun w1 h => ⟨hw.1.others h, h.image.trans hw.2⟩
  unfold publishStaged
  dsimp only
  refine parted_then (hid hw) fun _ w1 h1 => ?_
  have hcreate : wp (perform "cannot create baseline stage" (joinPath stageDirectory "image.img")
      fun w => { w with stagedImage := true, image := [] })
      (parted paths fun _ w' => Tracked paths [] w' ∧ w'.image = []) w1 :=
    perform_spec h1.1 fun w2 h => ⟨(h1.1.others h).stage, rfl⟩
  refine parted_then hcreate fun _ w2 h2 => ?_
  have hopened : wp (call fun c w =>
      (if c.fault.isNone ∧ c.safe then .ok () else imageFail "baseline source changed while opening", w))
      (parted paths fun _ w' => Tracked paths [] w' ∧ w'.image = []) w2 :=
    check_spec h2.1 (fun _ _ => rfl) fun c w3 _ h _ => ⟨h2.1.others h, h.image.trans h2.2⟩
  refine parted_then hopened fun _ w3 h3 => parted_then (hempty h3) fun _ w4 h4 => ?_
  -- the copy, with the digest of what is copied
  have hcopied : Copied [] (Digest.sha256Init Digest.blank) w4 := ⟨rfl, h4.2⟩
  refine parted_then (copyImage_spec reads [] h4.1 hcopied) fun context w5 h5 => ?_
  obtain ⟨hw5, chunks, hcontext, himage⟩ := h5
  refine parted_then (hid hw5) fun _ w6 h6 => ?_
  have himage6 : w6.image = chunks.flatten := h6.2.image.trans himage
  have hlook : ∀ {f : Cell → World → Except Failure ℕ × World}, (∀ c w7, (f c w7).2 = w7) →
      (∀ c w7 bytes, (f c w7).1 = .ok bytes → w7.image.length = bytes) → wp (call f)
      (parted paths fun bytes w' => Tracked paths [] w' ∧ w'.image = chunks.flatten ∧ w'.image.length = bytes) w6 :=
    fun hsame hlength => check_spec h6.1 hsame fun c w7 bytes h hbytes =>
      ⟨h6.1.others h, h.image.trans himage6, hlength c w7 bytes hbytes⟩
  refine parted_then (hlook (fun c w7 => ?_) fun c w7 bytes hbytes => ?_) fun bytes w7 h7 => ?_
  · cases c.fault <;> rfl
  · cases hfault : c.fault with
    | some reason => rw [hfault] at hbytes; cases hbytes
    | none => rw [hfault] at hbytes; exact Except.ok.inj hbytes
  obtain ⟨hw7, himage7, rfl⟩ := h7
  split_ifs with hdiffers
  · exact wp_bind (wp_fail ⟨[], hw7⟩)
  rw [not_or, not_not, not_not] at hdiffers
  have hchecked : Checked size expected w7 := .of_copied ⟨hcontext, himage7⟩ hdiffers.1 hdiffers.2
  have hsidecar : wp (perform "cannot create baseline sidecar" (joinPath stageDirectory "image.img.sha256")
      fun w => { w with stagedSidecar := true, sidecar := [] })
      (parted paths fun _ w' => Staged paths size expected [] w') w7 := by
    refine perform_spec hw7 fun w8 h => ⟨(hw7.others h).stage, ?_, rfl⟩
    exact ⟨h.image ▸ hchecked.size, h.image ▸ hchecked.digest⟩
  refine parted_then hsidecar fun _ w8 h8 => parted_then (hstaged h8) fun _ w9 h9 => ?_
  refine parted_then (writeSidecar_spec h9) fun _ w10 h10 => parted_then (writeSidecar_spec h10) fun _ w11 h11 => ?_
  refine parted_then (writeSidecar_spec h11) fun _ w12 h12 => ?_
  refine parted_then (hstaged h12) fun _ w13 h13 => parted_then (hstaged h13) fun _ w14 h14 => ?_
  -- the two links
  have hfirst : wp (publishLink paths paths.sidecarName .sidecar) (parted paths fun _ w' =>
      Tracked paths [(paths.sidecarName, .sidecar)] w' ∧ Checked size expected w' ∧
        w'.sidecar = sidecarText expected paths.name) w14 := by
    refine publishLink_spec h14.tracked trivial (List.suffix_cons ..) fun w15 w16 h himage hsidecar htracked => ?_
    have hw15 := h14.others h
    exact ⟨htracked, ⟨himage ▸ hw15.checked.size, himage ▸ hw15.checked.digest⟩, hsidecar.trans hw15.sidecar⟩
  refine parted_then hfirst fun _ w15 h15 => ?_
  have hsecond : wp (publishLink paths paths.name .image) (parted paths fun _ w' => Published paths size expected w') w15 := by
    refine publishLink_spec h15.1 trivial (List.suffix_refl _) fun w16 w17 h himage hsidecar htracked => ?_
    obtain ⟨-, hchecked, htext⟩ := h15
    have himage' := himage.trans h.image
    exact ⟨htracked, ⟨himage' ▸ hchecked.size, himage' ▸ hchecked.digest⟩, (hsidecar.trans h.sidecar).trans htext⟩
  refine parted_then hsecond fun _ w16 h16 => perform_spec h16.tracked fun w17 h => ?_
  exact ⟨h16.tracked.others h, ⟨h.image ▸ h16.checked.size, h.image ▸ h16.checked.digest⟩, h.sidecar.trans h16.sidecar⟩

/-- How a publication ends. -/
def ended (paths : OutputPaths) (size : ℤ) (expected : Bytes) : Post World Failure Unit :=
  ⟨fun _ w => Published paths size expected w ∧ w.stagedImage = false ∧ w.stagedSidecar = false,
    fun _ w => Removing paths [] w, Safe paths⟩

/-- What is there when the stage is removed. -/
structure Ending (paths : OutputPaths) (size : ℤ) (expected : Bytes) (result : Except Failure Unit) (w : World) :
    Prop where
  tracked : ∃ made, Tracked paths made w
  published : ∀ u, result = .ok u → Published paths size expected w

theorem Ending.others {size : ℤ} {expected : Bytes} {result : Except Failure Unit} {w' : World} (h : Others w w')
    (hw : Ending paths size expected result w) {a b : Bool} :
    Ending paths size expected result { w' with stagedImage := a, stagedSidecar := b } := by
  obtain ⟨made, hmade⟩ := hw.tracked
  refine ⟨⟨made, (hmade.others h).stage⟩, fun u hu => ?_⟩
  have hpublished := hw.published u hu
  exact ⟨(hpublished.tracked.others h).stage, ⟨h.image ▸ hpublished.checked.size, h.image ▸ hpublished.checked.digest⟩,
    h.sidecar.trans hpublished.sidecar⟩

theorem Ending.safe {size : ℤ} {expected : Bytes} {result : Except Failure Unit}
    (hw : Ending paths size expected result w) : Safe paths w := by
  obtain ⟨made, hmade⟩ := hw.tracked
  exact hmade.safe

theorem settle_spec {size : ℤ} {expected : Bytes} {result : Except Failure Unit}
    (hw : Ending paths size expected result w)
    (hstage : ∀ u, result = .ok u → w.stagedImage = false ∧ w.stagedSidecar = false) :
    wp (settle result) (ended paths size expected) w := by
  cases result with
  | ok u => exact wp_pure ⟨hw.published u rfl, hstage u rfl⟩
  | error e =>
    obtain ⟨made, hmade⟩ := hw.tracked
    refine wp_look_bind ?_
    rw [hmade.links]
    exact (removeOwnedLinks_spec made hmade.removing).seq (fun _ w1 h1 => wp_fail h1) (fun _ _ h => h.elim) fun _ h => h

theorem unlink_spec {size : ℤ} {expected : Bytes} {result : Except Failure Unit} {f : World → World}
    (hw : Ending paths size expected result w) (hf : ∀ w, ∃ a b, f w = { w with stagedImage := a, stagedSidecar := b }) :
    wp (call fun c w => (.ok (), if c.fault.isNone then f w else w))
      (⟨fun _ w => Ending paths size expected result w, fun _ _ => False, Safe paths⟩ : Post World Failure Unit) w := by
  refine wp_call Others.now hw.safe (fun c w1 a w2 h he => ?_) fun c w1 e w2 h he => ?_
  · cases he
    split_ifs
    · obtain ⟨a, b, hab⟩ := hf w1
      rw [hab]
      exact hw.others h
    · exact hw.others h
  · cases he

/-- A success stays one only when the stage is gone. -/
theorem rmdirResult_spec {directory : String} {size : ℤ} {expected : Bytes} {result : Except Failure Unit} {c : Cell}
    (hw : Ending paths size expected result w) :
    Ending paths size expected (rmdirResult directory result c w) w ∧
      ∀ u, rmdirResult directory result c w = .ok u → w.stagedImage = false ∧ w.stagedSidecar = false := by
  have herror : ∀ e, Ending paths size expected (.error e) w ∧
      ∀ u, (.error e : Except Failure Unit) = .ok u → w.stagedImage = false ∧ w.stagedSidecar = false :=
    fun e => ⟨⟨hw.tracked, fun u h => by cases h⟩, fun u h => by cases h⟩
  unfold rmdirResult
  cases result with
  | error e => exact herror e
  | ok u =>
    cases c.fault with
    | some reason => exact herror _
    | none =>
      dsimp only
      split_ifs with hstaged
      · exact herror _
      · exact ⟨hw, fun _ _ => by simpa using hstaged⟩

theorem finish_spec {stageDirectory : Option String} {size : ℤ} {expected : Bytes} {result : Except Failure Unit}
    (hw : Ending paths size expected result w) (hnone : stageDirectory = none → ∃ e, result = .error e) :
    wp (finish stageDirectory result) (ended paths size expected) w := by
  cases stageDirectory with
  | none =>
    obtain ⟨e, rfl⟩ := hnone rfl
    exact settle_spec hw fun u h => by cases h
  | some directory =>
    have hrmdir : ∀ w, Ending paths size expected result w →
        wp (call fun c w => (.ok (rmdirResult directory result c w), w))
          (⟨fun result w => Ending paths size expected result w ∧
            ∀ u, result = .ok u → w.stagedImage = false ∧ w.stagedSidecar = false, fun _ _ => False, Safe paths⟩ :
              Post World Failure (Except Failure Unit)) w := by
      intro w hw
      refine wp_call Others.now hw.safe (fun c w1 a w2 h he => ?_) fun c w1 e w2 h he => ?_
      · cases he
        exact rmdirResult_spec (hw.others h)
      · cases he
    refine wp_bind ?_
    refine (unlink_spec hw fun w => ⟨false, w.stagedSidecar, rfl⟩).seq (fun _ w1 h1 => ?_) (fun _ _ h => h.elim) fun _ h => h
    refine (unlink_spec h1 fun w => ⟨w.stagedImage, false, rfl⟩).seq (fun _ w2 h2 => ?_) (fun _ _ h => h.elim) fun _ h => h
    exact (hrmdir w2 h2).mono (fun result w3 h3 => settle_spec h3.1 h3.2) (fun _ _ h => h.elim) fun _ h => h

/-- No link of ours is there. -/
structure Start (w : World) : Prop where
  agrees : Agrees w
  none : ∀ name link, link.Own → w.entries name ≠ some link
  links : w.links = []
  removed : w.unremoved = false

theorem Start.tracked (hw : Start w) (paths : OutputPaths) : Tracked paths [] w :=
  ⟨hw.agrees, List.nil_suffix, hw.links,
    fun name link hlink => ⟨fun h => absurd h (hw.none name link hlink), fun h => absurd h List.not_mem_nil⟩, hw.removed⟩

theorem Start.others {w' : World} (h : Others w w') (hw : Start w) : Start w' :=
  ⟨h.agrees hw.agrees, fun name link hlink hentry => hw.none name link hlink ((h.own name link hlink).mp hentry),
    h.links.trans hw.links, h.unremoved.trans hw.removed⟩

/-- A process that has made no link. -/
def idle (ok : α → World → Prop) : Post World Failure α := ⟨ok, fun _ w => Start w, Start⟩

theorem idle_then {m : Op α} {f : α → Op β} {ok : α → World → Prop} {ok' : β → World → Prop} (hm : wp m (idle ok) w)
    (hf : ∀ a w', ok a w' → wp (f a) (idle ok') w') : wp (m >>= f) (idle ok') w :=
  hm.seq hf (fun _ _ h => h) fun _ h => h

/-- A call that only looks. -/
theorem idle_call {f : Cell → World → Except Failure α × World} {A : α → Prop} (hw : Start w)
    (hf : ∀ c w1, (f c w1).2 = w1) (hA : ∀ c w1 a, (f c w1).1 = .ok a → A a) :
    wp (call f) (idle fun a w' => Start w' ∧ A a) w := by
  refine wp_call Others.now hw (fun c w1 a w2 h he => ?_) fun c w1 e w2 h he => ?_
  · obtain rfl := (hf c w1).symm.trans (congrArg Prod.snd he)
    exact ⟨hw.others h, hA c _ a (congrArg Prod.fst he)⟩
  · obtain rfl := (hf c w1).symm.trans (congrArg Prod.snd he)
    exact hw.others h

theorem checkTarget_spec {name : String} (hw : Start w) :
    wp (checkTarget paths name) (idle fun _ w' => Start w' ∧ True) w := by
  refine idle_call hw (fun c w1 => ?_) fun _ _ _ _ => trivial
  cases w1.entries name with
  | some _ => rfl
  | none => cases c.fault <;> rfl

theorem outputPaths_spec {destination : String} (hw : Start w) :
    wp (outputPaths destination) (idle fun paths w' => Start w' ∧ paths.name = (splitPath destination).2) w := by
  unfold outputPaths
  cases hsplit : splitPath destination with
  | mk parent name =>
    dsimp only
    refine idle_then (idle_call (A := fun _ => True) hw (fun c w1 => ?_) fun _ _ _ _ => trivial) fun _ w1 h1 => ?_
    · cases c.fault <;> rfl
    split_ifs with hname
    · exact wp_bind (wp_fail h1.1)
    refine idle_then (idle_call (A := fun paths => paths.name = name) h1.1 (fun c w1 => ?_) fun c w1 paths h => ?_)
      fun paths w2 h2 => ?_
    · cases c.fault <;> rfl
    · cases hfault : c.fault with
      | some reason => rw [hfault] at h; cases h
      | none =>
        rw [hfault] at h
        obtain rfl := Except.ok.inj h
        rfl
    refine idle_then (checkTarget_spec h2.1) fun _ w3 h3 => ?_
    exact idle_then (checkTarget_spec h3.1) fun _ w4 h4 => wp_pure ⟨h4.1, h2.2⟩

theorem ownedSingleLink_spec (hw : Start w) : wp ownedSingleLink (idle fun _ w' => Start w' ∧ True) w :=
  idle_call hw (fun _ _ => rfl) fun _ _ _ _ => trivial

end Publication

/-- What a publication leaves when it returns 0. -/
structure Complete (destination : String) (report : Except Failure JsonValue) (size : ℤ) (w : World) : Prop where
  image : w.entries (splitPath destination).2 = some .image
  sidecar : w.entries ((splitPath destination).2 ++ ".sha256") = some .sidecar
  content : ∃ expected, reportBaseline report size = .ok expected ∧ (w.image.length : ℤ) = size ∧
    (w.image.length < 2 ^ 61 → Sha2.hex (Sha2.sha256 w.image) = expected) ∧
    w.sidecar = expected ++ ascii "  " ++ Utf8.text (splitPath destination).2.toList ++ [10]
  stage : w.stagedImage = false ∧ w.stagedSidecar = false

theorem evidencePublish_spec {source destination : String} {report : Except Failure JsonValue} {size : ℤ}
    {reads : List (Option Bytes)} {w : World} (hw : Start w) :
    wp (evidencePublish source destination report size reads)
      (⟨fun _ w' => (∃ paths, Safe paths w') ∧ Complete destination report size w',
        fun _ w' => ∃ paths, Removing paths [] w', fun w' => ∃ paths, Safe paths w'⟩ : Post World Failure Unit) w := by
  have hfree : ∀ w, Start w → ∃ paths, Removing paths [] w := fun w hw => ⟨⟨"", ""⟩, (hw.tracked _).removing⟩
  have hsafe : ∀ w, Start w → ∃ paths, Safe paths w := fun w hw => ⟨⟨"", ""⟩, (hw.tracked _).safe⟩
  unfold evidencePublish
  refine (outputPaths_spec hw).seq (fun paths w1 h1 => ?_) (fun _ w h => hfree w h) hsafe
  refine (ownedSingleLink_spec h1.1).seq (fun _ w2 h2 => ?_) (fun _ w h => hfree w h) hsafe
  refine (ownedSingleLink_spec h2.1).seq (fun _ w3 h3 => ?_) (fun _ w h => hfree w h) hsafe
  cases hreport : reportBaseline report size with
  | error e => exact wp_fail (hfree w3 h3.1)
  | ok expected =>
    have hopen : wp (perform "cannot open baseline output directory" paths.parent id)
        (idle fun _ w' => Start w' ∧ True) w3 := by
      refine idle_call h3.1 (fun c w1 => ?_) fun _ _ _ _ => trivial
      cases c.fault <;> rfl
    refine hopen.seq (fun _ w4 h4 => ?_) (fun _ w h => hfree w h) hsafe
    have hended : ∀ {m : Op Unit} {w : World}, wp m (ended paths size expected) w →
        wp m (⟨fun _ w' => (∃ paths, Safe paths w') ∧ Complete destination report size w',
          fun _ w' => ∃ paths, Removing paths [] w', fun w' => ∃ paths, Safe paths w'⟩ : Post World Failure Unit) w := by
      intro m w hm
      refine hm.mono (fun _ w' h => ?_) (fun _ w' h => ⟨paths, h⟩) fun w' h => ⟨paths, h⟩
      obtain ⟨hpublished, hstage⟩ := h
      have hown := hpublished.tracked.own
      refine ⟨⟨paths, hpublished.tracked.safe⟩, ?_, ?_, ⟨expected, hreport, hpublished.checked.size,
        hpublished.checked.digest, ?_⟩, hstage⟩
      · rw [← h1.2]
        exact (hown _ .image trivial).mpr List.mem_cons_self
      · rw [← h1.2]
        exact (hown _ .sidecar trivial).mpr (List.mem_cons_of_mem _ List.mem_cons_self)
      · rw [← h1.2]
        exact hpublished.sidecar
    have hmiddle : ∀ {w : World} {made : List (String × Link)} (e : Failure), Tracked paths made w →
        Ending paths size expected (.error e) w := fun e h => ⟨⟨_, h⟩, fun u h => by cases h⟩
    refine wp.catch (idle_call (A := fun _ => True) h4.1 (fun c w1 => ?_) fun _ _ _ _ => trivial)
      (fun directory w5 h5 => ?_) (fun e w5 h5 => ?_) hsafe
    · cases c.fault <;> rfl
    · refine (publishStaged_spec (h5.1.tracked paths)).catch (fun u w6 h6 => ?_) (fun e w6 h6 => ?_) fun w' h => ⟨paths, h⟩
      · exact hended (finish_spec ⟨⟨_, h6.tracked⟩, fun _ _ => h6⟩ fun h => by cases h)
      · obtain ⟨made, hmade⟩ := h6
        exact hended (finish_spec (hmiddle e hmade) fun h => by cases h)
    · exact hended (finish_spec (hmiddle e (h5.tracked paths)) fun _ => ⟨e, rfl⟩)

/-- A report of a baseline of three bytes. -/
def sampleReport : Except Failure JsonValue :=
  .ok (.object [
    (ascii "baselineSha256", .string (ascii "ba7816bf8f01cfea414140de5dae2223b00361a396177a9cb410ff61f20015ad")),
    (ascii "baselineCompressedBytes", .integer (ascii "3"))])

def sampleWorld : World := ⟨fun _ => none, [], false, false, [], [], [], false⟩

/-- Another process puts a file beside the outputs. -/
def sampleCell : Cell := { events := [.create "notes" 7], path := "/evidence" }

def sampleRun : Outcome Failure Unit × List Cell × World :=
  evidencePublish "baseline.img" "out//./image.img" sampleReport 3 [some (ascii "ab"), some (ascii "c"), some []]
    (List.replicate 40 sampleCell) sampleWorld

end Hamn.Evidence
