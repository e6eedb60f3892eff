import LazyLisp.Proofs.Demanding
import LazyLisp.Proofs.Shortcuts

/-!
The library's `drop` and `last`, which are loops. A loop binds its variables in a frame of its own and
binds them anew for each round. In these loops no closure is made, so no closure can see the frame,
whatever the thunks of the collection do; that it changes is the loop's own work.
-/

namespace LazyLisp
set_option autoImplicit false

namespace World
variable {w : World} {scope : Scope} {layers : List (List (Symbol × Value))} {id : FrameId}

/-- A change of a frame that lies further inside. -/
theorem Layers.modify (h : w.Layers scope layers) (hid : ∀ p, scope = some p → p < id)
    (f : Frame → Frame) : { w with frames := w.frames.modify id f }.Layers scope layers := by
  induction h with
  | outermost => exact .outermost
  | @inside i g _ hg hparent _ ih =>
    have hlt : i < id := hid i rfl
    have hsame : (w.frames.modify id f)[i]? = some g := by
      rw [Array.getElem?_modify, if_neg (Nat.ne_of_gt hlt), hg]
    exact .inside hsame hparent (ih fun p hp => Nat.lt_trans (hparent p hp) hlt)

/-- A change of the innermost frame. -/
theorem Layers.modify_innermost {bindings bindings' : List (Symbol × Value)}
    (h : w.Layers (some id) (bindings :: layers)) {f : Frame → Frame}
    (hf : ∀ g : Frame, (f g).parent = g.parent)
    (hbindings : ∀ g : Frame, g.bindings = bindings → (f g).bindings = bindings') :
    { w with frames := w.frames.modify id f }.Layers (some id) (bindings' :: layers) := by
  cases h with
  | @inside _ g _ hg hparent houter =>
    have hchanged : (w.frames.modify id f)[id]? = some (f g) := by
      rw [Array.getElem?_modify, if_pos rfl, hg]
      rfl
    rw [← hbindings g rfl]
    refine .inside hchanged (hf g ▸ hparent) ?_
    rw [hf g]
    exact houter.modify hparent f

end World

/-- The frame of a loop: it has these bindings, lies in a scope with these layers, and no closure can
see it. -/
structure Round (frame : FrameId) (bindings : List (Symbol × Value))
    (outer : List (List (Symbol × Value))) (w : World) : Prop where
  scene : Scene (some frame) (bindings :: outer) w
  hides : w.Hides frame

namespace Round
variable {R : World → World → Prop} {frame : FrameId} {bindings : List (Symbol × Value)}
  {outer : List (List (Symbol × Value))} {w v : World}

theorem idle (h : Round frame bindings outer w) (hwv : Idle w v) : Round frame bindings outer v :=
  ⟨h.scene.idle hwv, h.hides.idle hwv⟩

theorem looked (hR : Harmless R) (h : Round frame bindings outer w) (hwv : Looked R w v) :
    Round frame bindings outer v :=
  ⟨h.scene.proceeds hR hwv.toProceeds, hwv.hides frame (h.scene.layers.has frame rfl) h.hides⟩

/-- The loop's own work on its frame. -/
theorem modify (h : Round frame bindings outer w) {f : Frame → Frame}
    {bindings' : List (Symbol × Value)} (hf : ∀ g : Frame, (f g).parent = g.parent)
    (hbindings : ∀ g : Frame, g.bindings = bindings → (f g).bindings = bindings') :
    Round frame bindings' outer { w with frames := w.frames.modify frame f } ∧
      Works w { w with frames := w.frames.modify frame f } := by
  have hstocked := h.scene.stocked.along (v := { w with frames := w.frames.modify frame f })
    (fun _ _ hx => hx) fun _ _ hc => hc
  exact ⟨⟨⟨h.scene.layers.modify_innermost hf hbindings, hstocked, h.scene.attached⟩,
      h.hides.keeps (.modify w frame hf) rfl⟩,
    (Works.refl w).modifyFrame (fun hseen => absurd hseen h.hides.not_seen) f⟩

theorem bound (h : Round frame bindings outer w) (s : Symbol) (x : Value) :
    Round frame (bindings ++ [(s, x)]) outer (w.bound frame s x) ∧ Works w (w.bound frame s x) :=
  h.modify (fun _ => rfl) fun _ hg => hg ▸ rfl

theorem rebound (h : Round frame bindings outer w) (xs : List Value) :
    Round frame (Frame.rebindAll bindings xs) outer
        { w with frames := w.frames.modify frame fun f => f.rebind xs } ∧
      Works w { w with frames := w.frames.modify frame fun f => f.rebind xs } :=
  h.modify (fun _ => rfl) fun _ hg => hg ▸ rfl

end Round

namespace Evaluation
open Library
variable {R : World → World → Prop} {w v u : World} {scope : Scope}
  {layers outer : List (List (Symbol × Value))} {a b x y : Value} {fresh : NameId}
  {bindings : List (Symbol × Value)} {frame : FrameId} {args : List Value}

/-! The test of a loop, and its last form. -/

/-- A macro that stops early, of two forms that do no more than frames and events. -/
theorem ShortCircuits.pair_comesTo {stops : Value → Bool} {absent : Value} {knows : World → Prop}
    {c : Nat → Eval Outcome} (h : ShortCircuits fresh stops absent knows w scope [a, b] c)
    (hlayers : w.Layers scope layers) (hknows : ∀ v, Idle w v → knows v)
    (ha : ∀ v id, Idle w v → v.Layers (some id) ([] :: layers) → Yields (values (some id) a) v x)
    (hx : ∀ id, x ≠ .transformer id)
    (hb : ∀ v id, Idle w v → v.Layers (some id) ([(.plain fresh, x)] :: layers) →
      Yields (values (some id) b) v y) :
    ∃ u, ComesTo c w (.ok (.value (if stops x then x else y)) u) ∧ Idle w u := by
  obtain ⟨v, id, hopens, -, -, -, hvalue⟩ := h
  obtain ⟨u, hu, hvu⟩ := ha v id hopens.idle (hopens.layers_open hlayers) v (.refl v)
  obtain ⟨z, hz, -, hreads⟩ := hvalue x u hu
  have hwz := (hopens.idle_bound hvu (.plain fresh) x).trans hz
  have hgoes : if stops x then ComesTo c w (.ok (.value x) z) else
      knows u → ∃ d, Continues c w d z ∧
        ShortCircuits fresh stops absent knows z (some id) [b] d := by
    cases x with
    | transformer id => exact absurd rfl (hx id)
    | _ => exact hreads
  cases hstops : stops x with
  | true =>
    rw [hstops] at hgoes
    exact ⟨z, hgoes, hwz⟩
  | false =>
    rw [hstops] at hgoes
    obtain ⟨d, hd, t, hzt, hlast⟩ := hgoes (hknows u (hopens.idle.trans hvu))
    have hinside := (hopens.layers_bound hlayers hvu.frames (.plain fresh) x).keeps
      (hz.trans hzt).frames
    obtain ⟨r, hr, htr⟩ := hb t id (hwz.trans hzt) hinside t (.refl t)
    exact ⟨r, hd.comesTo (hlast.comesTo (comesTo_outcome hr)), hwz.trans (hzt.trans htr)⟩

/-- A use of `and` whose forms do no more than frames and events. -/
theorem and_pair_yields (h : Scene scope layers w)
    (hfree : meaningIn layers (.plain Entry.and.name) = none)
    (hcode : Value.allCode [a, b] = true)
    (ha : ∀ v id, Idle w v → Scene (some id) ([] :: layers) v → Yields (values (some id) a) v x)
    (hx : ∀ id, x ≠ .transformer id)
    (hb : ∀ v id, Idle w v → Scene (some id) ([(.plain andName, x)] :: layers) v →
      Yields (values (some id) b) v y) :
    Yields (values scope (use .and [a, b])) w (if x.isTruthy then y else x) := by
  simp only [Value.allCode_cons, Bool.and_eq_true] at hcode
  obtain ⟨hacode, hbcode, -⟩ := hcode
  intro v hwv
  have h := h.idle hwv
  have hstocked : v.Stocked [.and] [.first, .next] := h.stocked.subset (by decide) (by decide)
  have htell : ∀ form ∈ [a, b], form.Tellable v.log := by
    simp [tellable_of_isCode v.log hacode, tellable_of_isCode v.log hbcode]
  obtain ⟨u, hu, hvu⟩ := (and_short_circuits h.layers hfree hstocked (Value.isList_list _)
    htell).pair_comesTo h.layers (fun u hvu => hstocked.idle hvu)
    (fun u id hvu hlayers => ha u id (hwv.trans hvu) (h.within hvu hlayers)) hx
    fun u id hvu hlayers => hb u id (hwv.trans hvu) (h.within hvu hlayers)
  refine ⟨u, comesTo_value ?_, hvu⟩
  cases hx : x.isTruthy <;> rw [hx] at hu <;> exact hu

/-- A use of `or` whose forms do no more than frames and events. -/
theorem or_pair_yields (h : Scene scope layers w)
    (hfree : meaningIn layers (.plain Entry.or.name) = none)
    (hcode : Value.allCode [a, b] = true)
    (ha : ∀ v id, Idle w v → Scene (some id) ([] :: layers) v → Yields (values (some id) a) v x)
    (hx : ∀ id, x ≠ .transformer id)
    (hb : ∀ v id, Idle w v → Scene (some id) ([(.plain orName, x)] :: layers) v →
      Yields (values (some id) b) v y) :
    Yields (values scope (use .or [a, b])) w (if x.isTruthy then x else y) := by
  simp only [Value.allCode_cons, Bool.and_eq_true] at hcode
  obtain ⟨hacode, hbcode, -⟩ := hcode
  intro v hwv
  have h := h.idle hwv
  have hstocked : v.Stocked [.or, .when] [.first, .next] := h.stocked.subset (by decide) (by decide)
  have htell : ∀ form ∈ [a, b], form.Tellable v.log := by
    simp [tellable_of_isCode v.log hacode, tellable_of_isCode v.log hbcode]
  obtain ⟨u, hu, hvu⟩ := (or_short_circuits h.layers hfree hstocked (Value.isList_list _)
    htell).pair_comesTo h.layers (fun u hvu => hstocked.idle hvu)
    (fun u id hvu hlayers => ha u id (hwv.trans hvu) (h.within hvu hlayers)) hx
    fun u id hvu hlayers => hb u id (hwv.trans hvu) (h.within hvu hlayers)
  exact ⟨u, comesTo_value hu, hvu⟩

/-! Rounds. -/

/-- The rounds of a loop of one form, when some have been made. -/
abbrev turns (frame : FrameId) (expected : Nat) (form : Value) (done : Nat) : Nat → Eval Value :=
  fun n => rounds (.ofBudget n) frame expected [form] (n - done)

/-- The bindings of a loop, and its rounds. -/
abbrev opened (frame : FrameId) (bindings : List (Symbol × Value)) (expected : Nat) (form : Value) :
    Nat → Eval Outcome := fun n => do
  bindAll (.ofBudget n) frame bindings
  return .value (← turns frame expected form 0 n)

theorem loop_opens {forms : List Value} {form : Value} (hready : w.Ready) (hwv : Idle w v)
    (h : Scene scope layers v)
    (hbindings : bindingPairs "loop" (some (.vector forms)) = pure bindings)
    (hcode : Value.allCode [.vector forms, form] = true) :
    ∃ frame u, Idle w u ∧ Round frame [] layers u ∧
      Continues (outcomes scope (.list [.special .looping, .vector forms, form])) v
        (opened frame bindings bindings.length form) u := by
  obtain ⟨u, hvu, hcontinues⟩ := loop_continues (Value.isList_list _)
    (tellable_of_isCode v.log ((Value.isCode_list _).trans hcode)) hbindings scope
  have hwu := hwv.trans hvu
  have hopens : Opens v scope { u with frames := u.frames.push { parent := scope } } u.frames.size :=
    ⟨hvu.pushFrame _, hvu.frames.grows, by simp⟩
  have hopened := hwu.pushFrame { parent := scope }
  have hhides : w.Hides u.frames.size := .of_scoped hready.wellScoped hwu.frames.grows
  exact ⟨_, _, hopened, ⟨h.within hopens.idle (hopens.layers_open h.layers), hhides.idle hopened⟩,
    hcontinues⟩

theorem opened_binds {s : Symbol} {expected : Nat} {form first : Value}
    (h : ComesTo (values (some frame) first) w (.ok x v)) :
    Continues (opened frame ((s, first) :: bindings) expected form) w
      (opened frame bindings expected form) (v.bound frame s x) := by
  have hbound : ComesTo (fun _ => Eval.push frame s x) v (.ok ⟨⟩ (v.bound frame s x)) :=
    .always (.ok _ _) fun _ => rfl
  have hsteps : ∀ n, opened frame ((s, first) :: bindings) expected form n =
      values (some frame) first n >>= fun x => Eval.push frame s x >>= fun _ =>
        opened frame bindings expected form n := fun n => by
    simp only [opened, bindAll, bind_assoc]
  rw [funext hsteps]
  exact (Continues.bind h).trans (.bind hbound)

theorem opened_ends {expected : Nat} {form : Value}
    (h : ComesTo (turns frame expected form 0) w (.ok x v)) :
    ComesTo (opened frame [] expected form) w (.ok (.value x) v) :=
  h.bind (.pure _ v)

theorem recur_comesTo {Q : List Value → World → Prop}
    (hargs : Secures (fun n => args.mapM ((Engine.ofBudget n).value scope)) w Q)
    (hcode : Value.allCode args = true) :
    ∃ xs v, Q xs v ∧
      ComesTo (outcomes scope (.list (.special .recur :: args))) w (.ok (.again xs) v) := by
  have htell : (Value.list (.special .recur :: args)).Tellable w.log :=
    tellable_of_isCode _ (by simp [hcode])
  obtain ⟨u, hwu, hspecial⟩ := special_continues (Value.isList_list _) htell scope
  obtain ⟨xs, v, hxs, hQ⟩ := hargs u hwu
  exact ⟨xs, v, hQ, hspecial.comesTo (hxs.bind (.pure _ v))⟩

/-! Dropping. -/

/-- What a round of `drop` evaluates. -/
def dropStep : Value := .list [.special .ifElse,
  use .and [use .isPositive [word countName], word seqName],
  .list [.special .recur, call .dec [word countName], call .next [word seqName]],
  use .or [word seqName, .list []]]

/-- The bindings of a round of `drop`: how many elements are still to go, and the collection. -/
def dropBindings (k : Int64) (y : Value) : List (Symbol × Value) :=
  [(.plain countName, .int k), (.plain seqName, y)]

/-- Where the loop lies. -/
def dropLayers (id : ClosureId) (n : Int64) (coll : Value) : List (List (Symbol × Value)) :=
  [Entry.drop.bindings [.int n, coll], [(.plain Entry.drop.name, .function id)]]

variable {id : ClosureId} {n k : Int64} {coll : Value} {s : Seq} {items : List (Item R)} {ends : Bool}

theorem dropTest_yields (h : Scene scope (dropBindings k y :: dropLayers id n coll) w)
    (hy : ∀ id, y ≠ .transformer id) :
    Yields (values scope (use .and [use .isPositive [word countName], word seqName])) w
      (if 0 < k.toInt then y else .bool false) := by
  have htest : Yields (values scope (use .and [use .isPositive [word countName], word seqName])) w
      (if (Value.bool (decide (0 < k.toInt))).isTruthy then y else .bool (decide (0 < k.toInt))) :=
    and_pair_yields h rfl rfl (fun _ _ _ hscene => positive_yields hscene rfl rfl) nofun
      fun _ _ _ hscene => (hscene.means rfl).yields hy
  by_cases hk : 0 < k.toInt
  · rw [decide_eq_true hk] at htest
    rwa [if_pos hk]
  · rw [decide_eq_false hk] at htest
    rwa [if_neg hk]

theorem dropEnd_yields (h : Scene scope (dropBindings k y :: dropLayers id n coll) w)
    (hy : ∀ id, y ≠ .transformer id) :
    Yields (values scope (use .or [word seqName, .list []])) w
      (if y.isTruthy then y else .list []) :=
  or_pair_yields h rfl rfl (fun _ _ _ hscene => (hscene.means rfl).yields hy) hy
    fun _ _ _ _ => empty_yields _ _

/-- The last form of the loop gives a collection of what is left. -/
theorem dropEnd_offers (hR : Harmless R) (h : s.Faces R true w items y) :
    ∃ t, (if y.isTruthy then y else .list []).toSeq? = some t ∧ t.Offers R true items w := by
  cases h with
  | none => exact ⟨.empty, rfl, Seq.offers_empty hR w⟩
  | some hfront => exact ⟨s, rfl, hfront.offers hR⟩

/-- A round of `drop` that passes over an element. -/
theorem dropStep_again (hR : Harmless R) (hk : 0 < k.toInt) {a : Item R} {t : Seq}
    (h : Round frame (dropBindings k (.seq s)) (dropLayers id n coll) w)
    (hfront : s.Fronted R true w x t a items) :
    ∃ y v, ComesTo (outcomes (some frame) dropStep) w
        (.ok (.again [.int (.ofInt (k.toInt - 1)), y]) v) ∧
      Looked R w v ∧ t.Faces R true v items y := by
  obtain ⟨_, u, ⟨rfl, hwu⟩, -, hcontinues⟩ := if_continues (Value.isList_list _ : dropStep.IsList _)
    (tellable_of_isCode _ rfl) (dropTest_yields h.scene nofun).secures
  rw [if_pos hk] at hcontinues
  have hu := (h.idle hwu).scene
  have hargs : Secures (fun n => [call .dec [word countName], call .next [word seqName]].mapM
      ((Engine.ofBudget n).value (some frame))) u fun xs v => ∃ y,
        xs = [.int (.ofInt (k.toInt - 1)), y] ∧ Looked R w v ∧ t.Faces R true v items y := by
    refine secures_arg (dec_yields hu rfl rfl hk).secures fun _ v hv => ?_
    obtain ⟨rfl, huv⟩ := hv
    have hwv := hwu.trans huv
    refine secures_arg (next_secures hR (hu.idle huv) rfl rfl
      (hfront.along hR (hR.works (.of_idle hwv))) rfl (.inl rfl)) fun y z hz => ?_
    refine secures_no_arg fun z' hzz' => ?_
    exact ⟨y, rfl, ((Looked.of_idle hR hwv).trans hR hz.1).trans hR (.of_idle hR hzz'),
      hz.2.along hR (hR.works (.of_idle hzz'))⟩
  obtain ⟨_, v, ⟨y, rfl, hlooked, hfaces⟩, hagain⟩ := recur_comesTo hargs rfl
  exact ⟨y, v, hcontinues.comesTo hagain, hlooked, hfaces⟩

/-- A round of `drop` that is the last. -/
theorem dropStep_ends (hR : Harmless R)
    (h : Round frame (dropBindings k y) (dropLayers id n coll) w) (hfaces : s.Faces R true w items y)
    (hlast : k.toInt ≤ 0 ∨ items = []) :
    ∃ r t v, ComesTo (outcomes (some frame) dropStep) w (.ok (.value r) v) ∧ R w v ∧
      r.toSeq? = some t ∧ t.Offers R true items v := by
  obtain ⟨_, u, ⟨rfl, hwu⟩, -, hcontinues⟩ := if_continues (Value.isList_list _ : dropStep.IsList _)
    (tellable_of_isCode _ rfl) (dropTest_yields h.scene hfaces.readable).secures
  have hstops : (if 0 < k.toInt then y else .bool false).isTruthy = false := by
    split
    · rename_i hk
      obtain rfl := hlast.resolve_left (Int.not_le.2 hk)
      cases hfaces
      rfl
    · rfl
  rw [hstops] at hcontinues
  obtain ⟨z, hz, huz⟩ := dropEnd_yields (h.idle hwu).scene hfaces.readable u (.refl u)
  have hwz := hR.works (.of_idle (hwu.trans huz))
  obtain ⟨t, ht, hoffers⟩ := dropEnd_offers hR (hfaces.along hR hwz)
  exact ⟨_, t, z, hcontinues.comesTo (comesTo_outcome hz), hwz, ht, hoffers⟩

/-- The rounds of `drop` pass over as many elements as are still to go, if there are that many. -/
theorem drop_turns (hR : Harmless R) (done : Nat)
    (h : Round frame (dropBindings k y) (dropLayers id n coll) w)
    (hfaces : s.Faces R true w items y) :
    ∃ r t v, ComesTo (turns frame 2 dropStep done) w (.ok r v) ∧ R w v ∧ r.toSeq? = some t ∧
      t.Offers R true (items.drop k.toInt.toNat) v := by
  induction items generalizing done k y s w with
  | nil =>
    obtain ⟨r, t, v, hr, hwv, ht, hoffers⟩ := dropStep_ends hR h hfaces (.inr rfl)
    exact ⟨r, t, v, rounds_value hr, hwv, ht, by rwa [List.drop_nil]⟩
  | cons a items ih =>
    by_cases hk : 0 < k.toInt
    · cases hfaces with
      | @some x t a items hfront =>
        obtain ⟨y, v, hagain, hlooked, hfaces⟩ := dropStep_again hR hk h hfront
        obtain ⟨hround, hworks⟩ := (h.looked hR hlooked).rebound [.int (.ofInt (k.toInt - 1)), y]
        obtain ⟨r, t, u, hr, hvu, ht, hoffers⟩ :=
          ih (done + 1) hround (hfaces.along hR (hR.works hworks))
        have hcount : k.toInt.toNat = (k.toInt - 1).toNat + 1 := by omega
        rw [(pred_fits hk).toInt_ofInt] at hoffers
        refine ⟨r, t, u, (rounds_continues hagain rfl).comesTo hr,
          hR.trans hlooked.along (hR.trans (hR.works hworks) hvu), ht, ?_⟩
        rwa [hcount, List.drop_succ_cons]
    · obtain ⟨r, t, v, hr, hwv, ht, hoffers⟩ := dropStep_ends hR h hfaces (.inl (Int.not_lt.1 hk))
      refine ⟨r, t, v, rounds_value hr, hwv, ht, ?_⟩
      rwa [Int.toNat_of_nonpos (Int.not_lt.1 hk)]

theorem drop_delivers (hR : Harmless R) (hready : w.Ready)
    (hid : w.closures[id]? = some Entry.drop.closure) (hs : coll.toSeq? = some s)
    (hoffers : s.Offers R true items w) (n : Int64) :
    Delivers R true w (.function id) [.int n, coll] (items.drop n.toInt.toNat) := by
  have hcalls : ∃ y v, (∀ scope, ComesTo (calls scope (.function id) [.int n, coll]) w (.ok y v)) ∧
      R w v ∧ ∃ t, y.toSeq? = some t ∧ t.Offers R true (items.drop n.toInt.toNat) v := by
    refine entry_calls hid rfl rfl fun u scope hwu hlayers => ?_
    have hscene : Scene (some scope) (dropLayers id n coll) u :=
      ⟨hlayers, hready.stocked.idle hwu, hwu.attached.trans hready.attached⟩
    have hbindings : bindingPairs "loop" (some (.vector [word countName, word countName, word seqName,
        call .seq [word collName]])) =
          pure [(.plain countName, word countName), (.plain seqName, call .seq [word collName])] := rfl
    obtain ⟨frame, z, hwz, hround, hloop⟩ := loop_opens hready hwu hscene hbindings
      (rfl : Value.allCode [_, dropStep] = true)
    have hword : Yields (values (some frame) (word countName)) z (.int n) :=
      (hround.scene.means rfl).yields nofun
    obtain ⟨z₁, hcount, hzz₁⟩ := hword z (.refl z)
    obtain ⟨hround₁, hworks₁⟩ := (hround.idle hzz₁).bound (.plain countName) (.int n)
    have hwz₁ := hR.trans (hR.works (.of_idle (hwz.trans hzz₁))) (hR.works hworks₁)
    have hlook : Secures (values (some frame) (call .seq [word collName]))
        (z₁.bound frame (.plain countName) (.int n)) fun y v =>
          Looked R (z₁.bound frame (.plain countName) (.int n)) v ∧ s.Faces R true v items y :=
      seq_secures hR hround₁.scene rfl rfl hs (hoffers.along hR hwz₁) (.inl rfl)
    obtain ⟨y, z₂, hseq, hlooked, hfaces⟩ := hlook _ (.refl _)
    obtain ⟨hround₂, hworks₂⟩ := (hround₁.looked hR hlooked).bound (.plain seqName) y
    obtain ⟨r, t, v, hr, hz₂v, ht, hoffers⟩ :=
      drop_turns hR 0 hround₂ (hfaces.along hR (hR.works hworks₂))
    have hresult := hloop.comesTo ((opened_binds hcount).comesTo ((opened_binds hseq).comesTo
      (opened_ends hr)))
    exact ⟨r, v, comesTo_value hresult, hR.trans hwz₁ (hR.trans hlooked.along
      (hR.trans (hR.works hworks₂) hz₂v)), t, ht, hoffers⟩
  obtain ⟨y, v, hy, hwv, t, ht, hoffers⟩ := hcalls
  have hrenews := hoffers.renews hR hwv
  exact ⟨y, t, v, hy, hwv, ht, hrenews.shows, hrenews⟩

/-! The last element. -/

/-- What a round of `last` evaluates. -/
def lastStep : Value := .list [.special .ifElse, call .next [word seqName],
  .list [.special .recur, call .next [word seqName]], call .first [word seqName]]

/-- Where the loop lies. -/
def lastLayers (id : ClosureId) (coll : Value) : List (List (Symbol × Value)) :=
  [Entry.last.bindings [coll], [(.plain Entry.last.name, .function id)]]

/-- The last description, or `nil` if there is none. -/
def lastItem (items : List (Item R)) : Item R := items.getLast?.getD (.exactly .nil)

/-- A round of `last` that leaves an element behind, for there are more. -/
theorem lastStep_again (hR : Harmless R) {a b : Item R} {t : Seq}
    (h : Round frame [(.plain seqName, .seq s)] (lastLayers id coll) w)
    (hfront : s.Fronted R true w x t a (b :: items)) :
    ∃ y v, ComesTo (outcomes (some frame) lastStep) w (.ok (.again [y]) v) ∧ Looked R w v ∧
      t.Faces R true v (b :: items) y := by
  have hnext : ∀ v, Looked R w v → Secures (values (some frame) (call .next [word seqName])) v
      fun y u => Looked R w u ∧ t.Faces R true u (b :: items) y := fun v hwv =>
    (next_secures hR (h.looked hR hwv).scene rfl rfl (hfront.along hR hwv.along) rfl
      (.inl rfl)).weaken fun y u hy => ⟨hwv.trans hR hy.1, hy.2⟩
  obtain ⟨y, u, ⟨hlooked, hfaces⟩, -, hcontinues⟩ := if_continues
    (Value.isList_list _ : lastStep.IsList _) (tellable_of_isCode _ rfl)
    (hnext w (.of_idle hR (.refl w)))
  cases hfaces with
  | some _ =>
    have hargs : Secures (fun n => [call .next [word seqName]].mapM
        ((Engine.ofBudget n).value (some frame))) u fun xs v => ∃ y,
          xs = [y] ∧ Looked R w v ∧ t.Faces R true v (b :: items) y := by
      refine secures_arg (hnext u hlooked) fun y v hv => secures_no_arg fun z hvz => ?_
      exact ⟨y, rfl, hv.1.trans hR (.of_idle hR hvz), hv.2.along hR (hR.works (.of_idle hvz))⟩
    obtain ⟨_, v, ⟨y, rfl, hlooked, hfaces⟩, hagain⟩ := recur_comesTo hargs rfl
    exact ⟨y, v, hcontinues.comesTo hagain, hlooked, hfaces⟩

/-- A round of `last` that is the last. -/
theorem lastStep_ends (hR : Harmless R)
    (h : Round frame [(.plain seqName, y)] (lastLayers id coll) w)
    (hfaces : s.Faces R true w items y) (hlast : items.length ≤ 1) :
    ∃ r v, ComesTo (outcomes (some frame) lastStep) w (.ok (.value r) v) ∧ R w v ∧
      (lastItem items).holds v r := by
  cases hfaces with
  | none =>
    have hword : ∀ v, Idle w v → Yields (values (some frame) (word seqName)) v .nil := fun v hwv =>
      ((h.idle hwv).scene.means rfl).yields nofun
    have hnext : Yields (values (some frame) (call .next [word seqName])) w .nil :=
      call_yields (h.scene.means_builtin .next rfl) (.cons (hword w (.refl w)) .nil) rfl fun v _ =>
        Core.call_next_takes rfl (Seq.Takes.empty v) (Seq.Takes.empty v)
    obtain ⟨_, u, ⟨rfl, hwu⟩, -, hcontinues⟩ := if_continues
      (Value.isList_list _ : lastStep.IsList _) (tellable_of_isCode _ rfl) hnext.secures
    have hfirst : Yields (values (some frame) (call .first [word seqName])) u .nil :=
      call_yields ((h.idle hwu).scene.means_builtin .first rfl) (.cons (hword u hwu) .nil) rfl
        fun v _ => Core.call_first_takes rfl (Seq.Takes.empty v)
    obtain ⟨v, hv, huv⟩ := hfirst u (.refl u)
    exact ⟨.nil, v, hcontinues.comesTo (comesTo_outcome hv), hR.works (.of_idle (hwu.trans huv)), rfl⟩
  | @some x t a items hfront =>
    obtain rfl := List.eq_nil_of_length_eq_zero (Nat.le_zero.1 (Nat.le_of_succ_le_succ hlast))
    obtain ⟨_, u, ⟨hlooked, hfaces⟩, -, hcontinues⟩ := if_continues
      (Value.isList_list _ : lastStep.IsList _) (tellable_of_isCode _ rfl)
      (next_secures hR h.scene rfl rfl hfront rfl (.inl rfl))
    cases hfaces
    have hfirst : Yields (values (some frame) (call .first [word seqName])) u x :=
      front_yields hR (h.looked hR hlooked).scene rfl rfl (hfront.along hR hlooked.along) rfl
    obtain ⟨v, hv, huv⟩ := hfirst u (.refl u)
    have hwv := hR.trans hlooked.along (hR.works (.of_idle huv))
    exact ⟨x, v, hcontinues.comesTo (comesTo_outcome hv), hwv, a.along hwv hfront.holds⟩

/-- The rounds of `last` leave all elements but the last behind. -/
theorem last_turns (hR : Harmless R) (done : Nat)
    (h : Round frame [(.plain seqName, y)] (lastLayers id coll) w)
    (hfaces : s.Faces R true w items y) :
    ∃ r v, ComesTo (turns frame 1 lastStep done) w (.ok r v) ∧ R w v ∧
      (lastItem items).holds v r := by
  induction items generalizing done y s w with
  | nil =>
    obtain ⟨r, v, hr, hrest⟩ := lastStep_ends hR h hfaces (Nat.zero_le 1)
    exact ⟨r, v, rounds_value hr, hrest⟩
  | cons a items ih =>
    cases items with
    | nil =>
      obtain ⟨r, v, hr, hrest⟩ := lastStep_ends hR h hfaces (Nat.le_refl 1)
      exact ⟨r, v, rounds_value hr, hrest⟩
    | cons b items =>
      cases hfaces with
      | some hfront =>
        obtain ⟨y, v, hagain, hlooked, hfaces⟩ := lastStep_again hR h hfront
        obtain ⟨hround, hworks⟩ := (h.looked hR hlooked).rebound [y]
        obtain ⟨r, u, hr, hvu, hlast⟩ := ih (done + 1) hround (hfaces.along hR (hR.works hworks))
        refine ⟨r, u, (rounds_continues hagain rfl).comesTo hr,
          hR.trans hlooked.along (hR.trans (hR.works hworks) hvu), ?_⟩
        rwa [lastItem, List.getLast?_cons_cons]

/-- Calling `last`. -/
theorem last_gives (hR : Harmless R) (hready : w.Ready)
    (hid : w.closures[id]? = some Entry.last.closure) (hs : coll.toSeq? = some s)
    (hoffers : s.Offers R true items w) :
    ∃ r v, (∀ scope, ComesTo (calls scope (.function id) [coll]) w (.ok r v)) ∧ R w v ∧
      (lastItem items).holds v r := by
  refine entry_calls hid rfl rfl fun u scope hwu hlayers => ?_
  have hscene : Scene (some scope) (lastLayers id coll) u :=
    ⟨hlayers, hready.stocked.idle hwu, hwu.attached.trans hready.attached⟩
  have hbindings : bindingPairs "loop" (some (.vector [word seqName, call .seq [word collName]])) =
      pure [(.plain seqName, call .seq [word collName])] := rfl
  obtain ⟨frame, z, hwz, hround, hloop⟩ := loop_opens hready hwu hscene hbindings
    (rfl : Value.allCode [_, lastStep] = true)
  have hwz := hR.works (.of_idle hwz)
  have hlook : Secures (values (some frame) (call .seq [word collName])) z fun y v =>
      Looked R z v ∧ s.Faces R true v items y :=
    seq_secures hR hround.scene rfl rfl hs (hoffers.along hR hwz) (.inl rfl)
  obtain ⟨y, t, hseq, hlooked, hfaces⟩ := hlook z (.refl z)
  obtain ⟨hround, hworks⟩ := (hround.looked hR hlooked).bound (.plain seqName) y
  obtain ⟨r, v, hr, htv, hlast⟩ := last_turns hR 0 hround (hfaces.along hR (hR.works hworks))
  exact ⟨r, v, comesTo_value (hloop.comesTo ((opened_binds hseq).comesTo (opened_ends hr))),
    hR.trans hwz (hR.trans hlooked.along (hR.trans (hR.works hworks) htv)), hlast⟩

end Evaluation
end LazyLisp
