import LazyLisp.Proofs.Scoping
import LazyLisp.Proofs.Suspending

/-!
Frames that no closure can see. What runs in a scope that does not lie inside of such a frame makes
no closure that lies inside of it. So the frame of a loop of the library stays out of sight while the
loop looks at a sequence, whatever the thunks of the sequence do.
-/

namespace LazyLisp
set_option autoImplicit false

namespace World

/-- The frames that were there still have their parents. -/
def KeepsParents (w v : World) : Prop :=
  ∀ (i : FrameId) (f : Frame), w.frames[i]? = some f →
    ∃ g, v.frames[i]? = some g ∧ g.parent = f.parent

namespace KeepsParents
variable {w v u : World}

theorem refl (w : World) : w.KeepsParents w := fun _ f h => ⟨f, h, rfl⟩

theorem of_keepsFrames (h : KeepsFrames w v) : w.KeepsParents v :=
  fun _ f hf => ⟨f, h.getElem? hf, rfl⟩

theorem trans (h : w.KeepsParents v) (h' : v.KeepsParents u) : w.KeepsParents u := by
  intro i f hf
  obtain ⟨g, hg, hgf⟩ := h i f hf
  obtain ⟨k, hk, hkg⟩ := h' i g hg
  exact ⟨k, hk, hkg.trans hgf⟩

theorem of_eq (h : w.KeepsParents v) (hframes : u.frames = v.frames) : w.KeepsParents u := by
  unfold KeepsParents
  rw [hframes]
  exact h

theorem push (w : World) (f : Frame) : w.KeepsParents { w with frames := w.frames.push f } :=
  of_keepsFrames ((KeepsFrames.refl w).push f)

theorem modify (w : World) (id : FrameId) {f : Frame → Frame} (hf : ∀ g, (f g).parent = g.parent) :
    w.KeepsParents { w with frames := w.frames.modify id f } := by
  intro i g hg
  by_cases hi : id = i
  · exact ⟨f g, by rw [Array.getElem?_modify, if_pos hi, hg]; rfl, hf g⟩
  · exact ⟨g, by rw [Array.getElem?_modify, if_neg hi, hg], rfl⟩

theorem grows (h : w.KeepsParents v) : w.frames.size ≤ v.frames.size := by
  by_contra hless
  have hlt : v.frames.size < w.frames.size := Nat.lt_of_not_le hless
  obtain ⟨g, hg, -⟩ := h _ _ (Array.getElem?_eq_getElem hlt)
  exact Nat.lt_irrefl _ (Array.getElem?_eq_some_iff.1 hg).1

end KeepsParents

/-- The chain of a scope is there and leads past the frame. -/
inductive Avoids (w : World) (id : FrameId) : Scope → Prop
  | none : Avoids w id none
  | outward {inner : FrameId} {f : Frame} (hne : inner ≠ id) (hf : w.frames[inner]? = some f)
      (h : Avoids w id f.parent) : Avoids w id (some inner)

/-- No closure lies inside of the frame. -/
def Hides (w : World) (id : FrameId) : Prop :=
  ∀ (k : ClosureId) (c : Closure), w.closures[k]? = some c → w.Avoids id c.scope

variable {w v : World} {id : FrameId} {scope : Scope}

theorem Avoids.keeps (h : w.Avoids id scope) (hwv : w.KeepsParents v) : v.Avoids id scope := by
  induction h with
  | none => exact .none
  | outward hne hf _ ih =>
    obtain ⟨g, hg, hparent⟩ := hwv _ _ hf
    exact .outward hne hg (hparent ▸ ih)

theorem Avoids.not_reaches (h : w.Avoids id scope) : ¬ w.Reaches id scope := by
  induction h with
  | none => nofun
  | outward hne hf _ ih =>
    intro hreaches
    cases hreaches with
    | here => exact hne rfl
    | outward hf' h => exact ih (Option.some.inj (hf.symm.trans hf') ▸ h)

/-- A frame that is still to be made lies on no chain. -/
theorem Scoped.avoids (hw : w.Scoped) (hid : w.frames.size ≤ id) (hscope : w.Has scope) :
    w.Avoids id scope := by
  have hinside : ∀ i, i < w.frames.size → w.Avoids id (some i) := by
    intro i
    -- a parent is older than its frame
    induction i using Nat.strong_induction_on with
    | _ i ih =>
      intro hi
      have hf := Array.getElem?_eq_getElem hi
      refine .outward (Nat.ne_of_lt (Nat.lt_of_lt_of_le hi hid)) hf ?_
      cases hp : (w.frames[i]).parent with
      | none => exact .none
      | some p =>
        have hlt := hw.parent_lt i _ p hf hp
        exact ih p hlt (Nat.lt_trans hlt hi)
  cases scope with
  | none => exact .none
  | some i => exact hinside i (hscope i rfl)

namespace Hides

theorem of_scoped (hw : w.Scoped) (hid : w.frames.size ≤ id) : w.Hides id :=
  fun k c hc => hw.avoids hid (hw.closure k c hc)

theorem keeps (h : w.Hides id) (hparents : w.KeepsParents v) (hclosures : v.closures = w.closures) :
    v.Hides id :=
  fun k c hc => (h k c (hclosures ▸ hc)).keeps hparents

theorem idle (h : w.Hides id) (hwv : Idle w v) : v.Hides id :=
  h.keeps (.of_keepsFrames hwv.frames) hwv.closures

theorem not_seen (h : w.Hides id) : ¬ w.Seen id :=
  fun ⟨k, c, hc, hreaches⟩ => (h k c hc).not_reaches hreaches

end Hides
end World

/-! Runs. -/

/-- The frame is out of sight, and the frames of an earlier state still have their parents. -/
structure HidesSince (id : FrameId) (base w : World) : Prop where
  parents : base.KeepsParents w
  there : id < base.frames.size
  hides : w.Hides id

namespace HidesSince
variable {id : FrameId} {base w v : World}

theorem of_eq (h : HidesSince id base w) (hframes : v.frames = w.frames)
    (hclosures : v.closures = w.closures) : HidesSince id base v :=
  ⟨h.parents.of_eq hframes, h.there,
    h.hides.keeps ((World.KeepsParents.refl w).of_eq hframes) hclosures⟩

theorem modifyFrame (h : HidesSince id base w) (i : FrameId) {f : Frame → Frame}
    (hf : ∀ g, (f g).parent = g.parent) :
    HidesSince id base { w with frames := w.frames.modify i f } :=
  ⟨h.parents.trans (.modify w i hf), h.there, h.hides.keeps (.modify w i hf) rfl⟩

theorem pushClosure (h : HidesSince id base w) {c : Closure} (hc : w.Avoids id c.scope) :
    HidesSince id base { w with closures := w.closures.push c } := by
  have hsame : w.KeepsParents { w with closures := w.closures.push c } :=
    (World.KeepsParents.refl w).of_eq rfl
  refine ⟨h.parents.of_eq rfl, h.there, fun k c' hc' => ?_⟩
  rw [Array.getElem?_push] at hc'
  split at hc'
  · cases hc'
    exact hc.keeps hsame
  · exact (h.hides k c' hc').keeps hsame

end HidesSince

theorem hidesSince_coupling (id : FrameId) :
    Coupling (HidesSince id) fun w scope => w.Avoids id scope where
  fits_none _ := .none
  fits_later _ _ _ h hscope := hscope.keeps h.parents
  closure _ _ k c h hc := h.hides k c hc
  names _ _ _ h := h.of_eq rfl rfl
  output _ _ _ h := h.of_eq rfl rfl
  events _ _ _ h := h.of_eq rfl rfl
  frame base w parent h hparent := by
    have hpush := World.KeepsParents.push w { parent := parent }
    have hthere : id < w.frames.size := Nat.lt_of_lt_of_le h.there h.parents.grows
    refine ⟨{ w with frames := w.frames.push { parent := parent } },
      ⟨.refl _, by simpa using Nat.lt_succ_of_lt hthere, h.hides.keeps hpush rfl⟩,
      .outward (Nat.ne_of_gt hthere) Array.getElem?_push_size (hparent.keeps hpush),
      fun v hv => ⟨h.parents.trans (hpush.trans hv.parents), h.there, hv.hides⟩,
      fun v f hf hv => hv.modifyFrame _ hf⟩
  newClosure _ _ _ _ _ _ _ h hscope hmake :=
    h.pushClosure (Closure.scope_of_make hmake ▸ hscope)
  newLazy _ _ := fun _ h => h.of_eq rfl rfl
  realize base _ _ _ h _ :=
    ⟨base, h.of_eq rfl rfl,
      fun _ _ hv => ⟨hv, fun _ _ => hv.of_eq rfl rfl, fun _ _ => hv.of_eq rfl rfl⟩⟩

theorem hidesSince_defining (id : FrameId) : Defining (HidesSince id) :=
  .of_spaces (fun _ _ _ h => h.of_eq rfl rfl) fun _ _ _ h => h.of_eq rfl rfl

namespace Seq.Takes
variable {w v : World} {s : Seq} {o : Option (Value × Seq)} {id : FrameId}

theorem hidesSince (h : Takes w s o v) {base : World} (hw : HidesSince id base w) :
    HidesSince id base v := by
  induction h with
  | @lazy w v u c cell n s o hc hrealize _ ih =>
    have htied : (Engine.ofBudget n).Tied _ _ _ _ :=
      (hidesSince_coupling id).tied (hidesSince_defining id) (Nat.le_refl n)
    have hkept := (htied.realize c).preserves w hw
    rw [after_ok hrealize] at hkept
    exact ih hkept
  | part parts h ih => exact ih hw
  | last h ih => exact ih hw
  | next h hnext ih ihnext => exact ihnext (ih hw)
  | _ => exact hw

/-- A look at a sequence does not bring a frame into sight. -/
theorem hides (h : Takes w s o v) (hid : id < w.frames.size) (hw : w.Hides id) : v.Hides id :=
  (h.hidesSince ⟨.refl w, hid, hw⟩).hides

end Seq.Takes
end LazyLisp
