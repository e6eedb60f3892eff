import LazyLisp.Proofs.Callables
import LazyLisp.Proofs.Listing
import LazyLisp.Proofs.Opening
import LazyLisp.Proofs.Scoping

/-!
What evaluation does on its own account before it comes to code that matters. It makes frames and
notes events; all else stays. So lists that are built of lists have the same elements in every such
state, forms whose text needs no thunk can be traced without a change, and a symbol means what the
layers of its scope say.
-/

namespace LazyLisp
set_option autoImplicit false

/-- Nothing but new frames and events. -/
structure Idle (w v : World) : Prop where
  frames : KeepsFrames w v
  rest : { v with frames := w.frames, events := w.events } = w

namespace Idle
variable {w v u : World}

theorem refl (w : World) : Idle w w := ⟨.refl w, rfl⟩

theorem of_muted (h : v.muted = w.muted) : Idle w v := by
  have hframes : v.frames = w.frames := (congrArg World.frames h :)
  refine ⟨(KeepsFrames.refl w).of_eq hframes, ?_⟩
  calc { v with frames := w.frames, events := w.events }
      = { v.muted with frames := w.frames, events := w.events } := rfl
    _ = w := by rw [h]; rfl

section
variable (h : Idle w v)
include h

theorem spaces : v.spaces = w.spaces := (congrArg World.spaces h.rest :)

theorem current : v.current = w.current := (congrArg World.current h.rest :)

theorem cells : v.cells = w.cells := (congrArg World.cells h.rest :)

theorem closures : v.closures = w.closures := (congrArg World.closures h.rest :)

theorem log : v.log = w.log := (congrArg World.log h.rest :)

theorem attached : v.attached = w.attached := (congrArg World.attached h.rest :)

theorem global? (s : Symbol) : v.global? s = w.global? s := by
  unfold World.global? World.lookupVar? World.varValue
  rw [h.spaces, h.current]

theorem trans (h' : Idle v u) : Idle w u := by
  refine ⟨h.frames.trans h'.frames, ?_⟩
  calc { u with frames := w.frames, events := w.events }
      = { { u with frames := v.frames, events := v.events } with
            frames := w.frames, events := w.events } := rfl
    _ = w := by rw [h'.rest, h.rest]

end

theorem pushFrame (h : Idle w v) (f : Frame) : Idle w { v with frames := v.frames.push f } :=
  ⟨h.frames.push f, h.rest⟩

theorem modifyFrame (h : Idle w v) {id : FrameId} (hid : w.frames.size ≤ id) (f : Frame → Frame) :
    Idle w { v with frames := v.frames.modify id f } :=
  ⟨h.frames.modify hid f, h.rest⟩

end Idle

/-! Computations that go on as others do. -/

/-- From one state the computation comes to what the other comes to from another state. -/
def Continues {α : Type} (c : Nat → Eval α) (w : World) (d : Nat → Eval α) (v : World) : Prop :=
  ∀ r, ComesTo c w r ↔ ComesTo d v r

namespace Continues
variable {α β : Type} {c d b : Nat → Eval α} {w v u : World}

theorem refl (c : Nat → Eval α) (w : World) : Continues c w c w := fun _ => .rfl

theorem trans (h : Continues c w d v) (h' : Continues d v b u) : Continues c w b u :=
  fun r => (h r).trans (h' r)

theorem comesTo (h : Continues c w d v) {r : EStateM.Result Stop World α} (hr : ComesTo d v r) :
    ComesTo c w r :=
  (h r).2 hr

theorem of_eq (h : ∃ n, ∀ m, n ≤ m → c m w = d m v) : Continues c w d v := by
  obtain ⟨n, hn⟩ := h
  refine fun r => ⟨fun ⟨hr, k, hk⟩ => ⟨hr, max n k, fun m hm => ?_⟩,
    fun ⟨hr, k, hk⟩ => ⟨hr, max n k, fun m hm => ?_⟩⟩
  · rw [← hn m (by omega), hk m (by omega)]
  · rw [hn m (by omega), hk m (by omega)]

/-- One unit of the budget may be used up. -/
theorem of_succ (h : ∃ n, ∀ m, n ≤ m → c (m + 1) w = d m v) : Continues c w d v := by
  obtain ⟨n, hn⟩ := h
  refine fun r => ⟨fun ⟨hr, k, hk⟩ => ⟨hr, max n k, fun m hm => ?_⟩, fun hr => ?_⟩
  · rw [← hn m (by omega), hk (m + 1) (by omega)]
  · exact hr.later ⟨n, hn⟩

/-- What follows a computation with a known result. -/
theorem bind {c : Nat → Eval β} {f : Nat → β → Eval α} {a : β} (h : ComesTo c w (.ok a v)) :
    Continues (fun n => c n >>= f n) w (fun n => f n a) v := by
  obtain ⟨-, n, hn⟩ := h
  exact of_eq ⟨n, fun m hm => run_bind_ok (hn m hm) _⟩

end Continues

/-- What the computation has ended with in some budget, it ends with in all larger ones. -/
def Persists {α : Type} (c : Nat → Eval α) : Prop :=
  ∀ ⦃n m : Nat⦄ (w : World), n ≤ m → Ended (c n w) → c m w = c n w

namespace Persists
variable {α β : Type} {c : Nat → Eval α} {f : Nat → α → Eval β} {w : World}

theorem const (m : Eval α) : Persists fun _ => m := fun _ _ _ _ _ => rfl

theorem comesTo (h : Persists c) {n : Nat} (hended : Ended (c n w)) : ComesTo c w (c n w) :=
  ⟨hended, n, fun _ hm => h w hm hended⟩

theorem bind (hc : Persists c) (hf : ∀ a, Persists fun n => f n a) :
    Persists fun n => c n >>= f n := by
  intro n m w hnm hended
  have hsame := hc w hnm hended.of_bind
  dsimp only at hended ⊢
  rw [run_bind, run_bind] at *
  rw [hsame]
  cases hrun : c n w with
  | error s v => rfl
  | ok a v =>
    rw [hrun] at hended
    exact hf a v hnm hended

/-- Where what follows it comes to an end, the computation has come to one. -/
theorem ends (hc : Persists c) {r : EStateM.Result Stop World β}
    (h : ComesTo (fun n => c n >>= f n) w r) : ∃ r', ComesTo c w r' := by
  obtain ⟨hr, n, hn⟩ := h
  have hrun : (c n >>= f n) w = r := hn n (Nat.le_refl n)
  exact ⟨_, hc.comesTo (Ended.of_bind (hrun.symm ▸ hr))⟩

end Persists

namespace Continues
variable {α β : Type} {c d : Nat → Eval α} {w v : World}

theorem symm (h : Continues c w d v) : Continues d v c w := fun r => (h r).symm

theorem follows (hc : Persists c) (h : Continues c w d v) {f : Nat → α → Eval β}
    {r : EStateM.Result Stop World β} (hr : ComesTo (fun n => c n >>= f n) w r) :
    ComesTo (fun n => d n >>= f n) v r := by
  obtain ⟨r', hc⟩ := hc.ends hr
  have hd := (h r').1 hc
  cases r' with
  | ok a u => exact (Continues.bind hd r).2 ((Continues.bind hc r).1 hr)
  | error s u =>
    cases s with
    | error err => exact hr.unique hc.bind_error ▸ hd.bind_error
    | exhausted => exact absurd rfl (hc.1 u)

/-- What follows goes on in the same way. -/
theorem bind_congr (hc : Persists c) (hd : Persists d) (h : Continues c w d v)
    (f : Nat → α → Eval β) :
    Continues (fun n => c n >>= f n) w (fun n => d n >>= f n) v :=
  fun _ => ⟨h.follows hc, h.symm.follows hd⟩

end Continues

/-- Whatever frames and events have been added, the computation gives a result, and the property
holds of it. -/
def Secures {α : Type} (c : Nat → Eval α) (w : World) (Q : α → World → Prop) : Prop :=
  ∀ v, Idle w v → ∃ a u, ComesTo c v (.ok a u) ∧ Q a u

namespace Secures
variable {α : Type} {c : Nat → Eval α} {w v : World} {Q : α → World → Prop}

theorem along (h : Secures c w Q) (hwv : Idle w v) : Secures c v Q :=
  fun u hu => h u (hwv.trans hu)

theorem weaken {Q' : α → World → Prop} (h : Secures c w Q) (hQ : ∀ a u, Q a u → Q' a u) :
    Secures c w Q' := by
  intro v hwv
  obtain ⟨a, u, hc, ha⟩ := h v hwv
  exact ⟨a, u, hc, hQ a u ha⟩

theorem pure (a : α) (w : World) : Secures (fun _ => pure a) w fun x u => x = a ∧ Idle w u :=
  fun v hwv => ⟨a, v, .pure a v, rfl, hwv⟩

end Secures

/-- The computation gives this value and changes no more than frames and events. -/
def Yields {α : Type} (c : Nat → Eval α) (w : World) (a : α) : Prop :=
  ∀ v, Idle w v → ∃ u, ComesTo c v (.ok a u) ∧ Idle v u

namespace Yields
variable {α β : Type} {c : Nat → Eval α} {w v : World} {a : α}

theorem along (h : Yields c w a) (hwv : Idle w v) : Yields c v a :=
  fun u hu => h u (hwv.trans hu)

theorem secures (h : Yields c w a) : Secures c w fun x u => x = a ∧ Idle w u := by
  intro v hwv
  obtain ⟨u, hc, hvu⟩ := h v hwv
  exact ⟨a, u, hc, rfl, hwv.trans hvu⟩

theorem pure (a : α) (w : World) : Yields (fun _ => pure a) w a :=
  fun v _ => ⟨v, .pure a v, .refl v⟩

theorem bind {f : Nat → α → Eval β} {b : β} (h : Yields c w a)
    (hf : Yields (fun n => f n a) w b) : Yields (fun n => c n >>= f n) w b := by
  intro v hwv
  obtain ⟨u, hc, hvu⟩ := h v hwv
  obtain ⟨z, hd, huz⟩ := hf u (hwv.trans hvu)
  exact ⟨z, hc.bind hd, hvu.trans huz⟩

end Yields

/-! Lists that are built of lists. -/

namespace Seq

/-- The sequence has these elements in every state. -/
inductive Fixed : Seq → List Value → Prop
  | empty : Fixed .empty []
  | cons (head : Value) {tail : Seq} {xs : List Value} (h : Fixed tail xs) :
      Fixed (.cons head tail) (head :: xs)
  | vectorView (items : List Value) (i : Nat) : Fixed (.vectorView items i) (items.drop i)
  | last {current : Seq} {xs : List Value} (h : Fixed current xs) : Fixed (.concat current []) xs
  | next {current next : Seq} {rest : List Seq} {xs ys : List Value} (h : Fixed current xs)
      (hnext : Fixed (.concat next rest) ys) : Fixed (.concat current (next :: rest)) (xs ++ ys)

namespace Fixed
variable {s : Seq} {xs : List Value}

theorem ofList (xs : List Value) : Fixed (ofList xs) xs := by
  induction xs with
  | nil => exact .empty
  | cons x xs ih => exact .cons x ih

theorem concat {current : Seq} {parts : List Seq} {yss : List (List Value)}
    (h : Fixed current xs) (hparts : List.Forall₂ Fixed parts yss) :
    Fixed (.concat current parts) (xs ++ yss.flatten) := by
  induction hparts generalizing current xs with
  | nil =>
    rw [List.flatten_nil, List.append_nil]
    exact .last h
  | cons hnext _ ih =>
    rw [List.flatten_cons]
    exact .next h (ih hnext)

end Fixed

/-- What is seen at the head. -/
inductive Front : Option (Value × Seq) → List Value → Prop
  | none : Front none []
  | some (x : Value) {t : Seq} {xs : List Value} (h : Fixed t xs) : Front (some (x, t)) (x :: xs)

namespace Fixed
variable {s : Seq} {xs : List Value}

/-- A look at the head finds the same in every state and runs nothing. -/
theorem known (h : Fixed s xs) : ∃ o n, Front o xs ∧ ∀ w, Known w n s o := by
  induction h with
  | empty => exact ⟨none, 1, .none, fun _ => rfl⟩
  | cons head h => exact ⟨_, 1, .some head h, fun _ => rfl⟩
  | vectorView items i =>
    refine ⟨_, 1, ?_, fun _ => rfl⟩
    cases hi : items[i]? with
    | none =>
      rw [List.drop_eq_nil_of_le (List.getElem?_eq_none_iff.1 hi)]
      exact .none
    | some v =>
      obtain ⟨hlt, rfl⟩ := List.getElem?_eq_some_iff.1 hi
      rw [List.drop_eq_getElem_cons hlt]
      refine .some _ ?_
      rcases indexRest_cases (.vectorView items) items i with ⟨hdrop, hrest⟩ | hrest
      · rw [hrest, hdrop]
        exact .empty
      · rw [hrest]
        exact .vectorView items (i + 1)
  | last h ih =>
    obtain ⟨o, n, hfront, hn⟩ := ih
    cases hfront with
    | none => exact ⟨none, n + 1, .none, fun w => (hn w).last⟩
    | some x ht => exact ⟨_, n + 1, .some x ht.last, fun w => (hn w).part []⟩
  | next h hnext ih ihnext =>
    obtain ⟨o, n, hfront, hn⟩ := ih
    cases hfront with
    | none =>
      obtain ⟨o, l, hfront, hl⟩ := ihnext
      refine ⟨o, max n l + 1, hfront, fun w => ?_⟩
      exact ((hn w).deeper (Nat.le_max_left n l)).next ((hl w).deeper (Nat.le_max_right n l))
    | some x ht => exact ⟨_, n + 1, .some x (ht.next hnext), fun w => (hn w).part _⟩

theorem uncons (h : Fixed s xs) :
    ∃ o n, Front o xs ∧ ∀ e : Engine, n ≤ e.bound → s.uncons e = pure o := by
  obtain ⟨o, n, hfront, hn⟩ := h.known
  exact ⟨o, n, hfront, fun e he => funext fun w => (hn w).uncons e he⟩

/-- Collecting what a function makes of the elements. -/
theorem foldWithin_push (h : Fixed s xs) : ∃ n, ∀ (e : Engine) (f : Value → Eval Value) (k : Nat)
    (acc : Array Value), n ≤ e.bound → n ≤ k →
      s.foldWithin e (fun (acc : Array Value) v => return acc.push (← f v)) k acc =
        do return acc ++ (← xs.mapM f).toArray := by
  induction xs generalizing s with
  | nil =>
    obtain ⟨o, n, hfront, hn⟩ := h.uncons
    cases hfront
    refine ⟨n + 1, fun e f k acc he hk => ?_⟩
    obtain ⟨k, rfl⟩ := Nat.exists_eq_add_of_le' (Nat.le_trans (Nat.succ_pos n) hk)
    rw [foldWithin, hn e (by omega), pure_bind, List.mapM_nil, pure_bind, Array.append_empty]
  | cons x xs ih =>
    obtain ⟨o, n, hfront, hn⟩ := h.uncons
    cases hfront with
    | some _ ht =>
      obtain ⟨l, hl⟩ := ih ht
      refine ⟨max n l + 1, fun e f k acc he hk => ?_⟩
      obtain ⟨k, rfl⟩ := Nat.exists_eq_add_of_le' (Nat.le_trans (Nat.succ_pos _) hk)
      have hpush : ∀ y (ys : List Value), acc.push y ++ ys.toArray = acc ++ (y :: ys).toArray := by
        intro y ys
        apply Array.toList_inj.1
        simp
      have hmore : ∀ acc, foldWithin e (fun (acc : Array Value) v => return acc.push (← f v)) k _
          acc = _ := fun acc => hl e f k acc (by omega) (by omega)
      rw [foldWithin, hn e (by omega), pure_bind, List.mapM_cons]
      simp only [bind_assoc, pure_bind, hmore, hpush]

theorem fold_push (h : Fixed s xs) : ∃ n, ∀ (e : Engine) (f : Value → Eval Value), n ≤ e.bound →
    s.fold e (fun (acc : Array Value) v => return acc.push (← f v)) #[] =
      do return (← xs.mapM f).toArray := by
  obtain ⟨n, hn⟩ := h.foldWithin_push
  refine ⟨n, fun e f he => ?_⟩
  rw [fold, hn e f e.bound #[] he he]
  simp only [Array.empty_append]

theorem toList (h : Fixed s xs) : ∃ n, ∀ e : Engine, n ≤ e.bound → s.toList e = pure xs := by
  obtain ⟨n, hn⟩ := h.fold_push
  have hpure : xs.mapM (pure : Value → Eval Value) = pure xs := by
    simpa using List.mapM_pure (m := Eval) (l := xs) (f := fun x : Value => x)
  refine ⟨n, fun e he => ?_⟩
  have hfold := hn e pure he
  simp only [hpure, pure_bind] at hfold
  rw [Seq.toList, hfold, pure_bind]

theorem holds (h : Fixed s xs) (w : World) : Holds w s xs := by
  induction h with
  | empty => exact .nil (.empty w)
  | cons head h ih => exact .cons (.cons w head _) ih
  | vectorView items i => exact .vectorView w items i
  | last h ih =>
    have hconcat := ih.concat (List.Forall₂.nil (R := Holds w))
    rwa [List.flatten_nil, List.append_nil] at hconcat
  | next h hnext ih ihnext =>
    clear h
    induction ih with
    | nil hstep =>
      -- the current part is used up, and the first step is that of the next
      cases ihnext with
      | nil hmore => exact .nil (.next hstep hmore)
      | cons hmore ht => exact .cons (.next hstep hmore) ht
    | cons hstep _ ih => exact .cons (.part _ hstep) ih

end Fixed
end Seq

namespace Value

/-- The form is a list of these elements in every state. -/
def IsList (form : Value) (items : List Value) : Prop := ∃ s, form = .seq s ∧ s.Fixed items

theorem isList_list (items : List Value) : (Value.list items).IsList items :=
  ⟨_, rfl, .ofList items⟩

/-- The form that a template builds of parts. -/
def spliced (parts : List (List Value)) : Value := .seq (.concat .empty (parts.map Seq.ofList))

theorem isList_spliced (parts : List (List Value)) : (spliced parts).IsList parts.flatten := by
  have hparts : List.Forall₂ Seq.Fixed (parts.map Seq.ofList) parts := by
    rw [List.forall₂_map_left_iff, List.forall₂_same]
    exact fun items _ => .ofList items
  exact ⟨_, rfl, Seq.Fixed.empty.concat hparts⟩

/-! Forms whose text is known. -/

/-- The form stands for the same data in every state. -/
def Timeless (form : Value) : Prop := ∃ d, ∀ w, Denotes w form d

namespace Timeless

theorem atom {form : Value} (h : form.isAtom = true) : form.Timeless := ⟨form, fun _ => .atom h⟩

theorem all {forms : List Value} (h : ∀ form ∈ forms, form.Timeless) :
    ∃ ps : List (Value × Value), ps.map (·.1) = forms ∧ ∀ w, ∀ p ∈ ps, Denotes w p.1 p.2 := by
  induction forms with
  | nil => exact ⟨[], rfl, fun _ => List.forall_mem_nil _⟩
  | cons form forms ih =>
    obtain ⟨⟨d, hd⟩, hforms⟩ := List.forall_mem_cons.1 h
    obtain ⟨ps, rfl, hps⟩ := ih hforms
    exact ⟨(form, d) :: ps, rfl, fun w => List.forall_mem_cons.2 ⟨hd w, hps w⟩⟩

theorem vector {forms : List Value} (h : ∀ form ∈ forms, form.Timeless) :
    (Value.vector forms).Timeless := by
  obtain ⟨ps, rfl, hps⟩ := all h
  exact ⟨_, fun w => .vector (hps w)⟩

theorem isList {form : Value} {items : List Value} (hform : form.IsList items)
    (h : ∀ item ∈ items, item.Timeless) : form.Timeless := by
  obtain ⟨s, rfl, hs⟩ := hform
  obtain ⟨ps, rfl, hps⟩ := all h
  exact ⟨_, fun w => .seq (hs.holds w) (hps w)⟩

/-- The text of the form is noted, if at all, and nothing else happens. -/
theorem traced {form : Value} (h : form.Timeless) (domain : LogDomain) (event : String → Event)
    (w : World) : ∃ v, Idle w v ∧ ∃ n, ∀ m, n ≤ m →
      LazyLisp.traced (.ofBudget m) domain event form w = .ok () v := by
  obtain ⟨d, hd⟩ := h
  cases hlog : w.log.isEnabled domain with
  | false =>
    refine ⟨w, .refl w, 0, fun m _ => ?_⟩
    rw [LazyLisp.traced, run_bind_ok (run_get w), hlog]
    rfl
  | true =>
    obtain ⟨n, hn⟩ := (hd w).peaceful .readable
    obtain ⟨text, htext⟩ := hn n n (Nat.le_refl n) (Nat.le_refl n)
    have htext : form.textOrType (.ofBudget n) w = .ok text w := textOrType_ok htext
    refine ⟨{ w with events := w.events.push (event text) }, .of_muted rfl, n, fun m hm => ?_⟩
    have hended : Ended (form.textOrType (.ofBudget n) w) := htext ▸ .ok text w
    have hmore := ((Engine.ofBudget_tied hm).textOrType form).run_eq
      (Unrelated.intro : Unrelated w w) hended
    rw [LazyLisp.traced, run_bind_ok (run_get w), hlog, if_pos rfl,
      run_bind_ok (hmore.trans htext)]
    rfl

end Timeless
end Value

mutual

/-- The form is made of atoms, lists and vectors. -/
def Value.isCode : Value → Bool
  | .seq s => s.isCode
  | .vector items => Value.allCode items
  | v => v.isAtom
termination_by structural x => x

def Seq.isCode : Seq → Bool
  | .empty => true
  | .cons head tail => head.isCode && tail.isCode
  | _ => false
termination_by structural x => x

def Value.allCode : List Value → Bool
  | [] => true
  | v :: vs => v.isCode && Value.allCode vs
termination_by structural x => x

end

namespace Value

@[simp] theorem isCode_symbol (s : Symbol) : (Value.symbol s).isCode = true := rfl

@[simp] theorem isCode_special (f : SpecialForm) : (Value.special f).isCode = true := rfl

@[simp] theorem isCode_builtin (b : Builtin) : (Value.builtin b).isCode = true := rfl

@[simp] theorem isCode_vector (items : List Value) :
    (Value.vector items).isCode = allCode items := rfl

@[simp] theorem allCode_nil : allCode [] = true := rfl

@[simp] theorem allCode_cons (v : Value) (vs : List Value) :
    allCode (v :: vs) = (v.isCode && allCode vs) := rfl

end Value

mutual

theorem Value.timeless_of_isCode : ∀ v : Value, v.isCode = true → v.Timeless
  | .seq s, h => by
    obtain ⟨items, hs, hitems⟩ := Seq.fixed_of_isCode s h
    exact .isList ⟨s, rfl, hs⟩ hitems
  | .vector items, h => .vector (Value.timeless_of_allCode items h)
  | .nil, h | .bool _, h | .int _, h | .float _, h | .char _, h | .string _, h | .symbol _, h
  | .keyword _, h | .space _, h | .var _, h | .unbound _, h | .function _, h | .transformer _, h
  | .builtin _, h | .special _, h | .pattern _, h => .atom h
termination_by structural x => x

theorem Seq.fixed_of_isCode : ∀ s : Seq, s.isCode = true →
    ∃ items, s.Fixed items ∧ ∀ item ∈ items, item.Timeless
  | .empty, _ => ⟨[], .empty, List.forall_mem_nil _⟩
  | .cons head tail, h => by
    have h := Bool.and_eq_true_iff.1 h
    obtain ⟨items, hs, hitems⟩ := Seq.fixed_of_isCode tail h.2
    exact ⟨head :: items, .cons head hs,
      List.forall_mem_cons.2 ⟨Value.timeless_of_isCode head h.1, hitems⟩⟩
  | .vectorView _ _, h => nomatch h
  | .textView _ _, h => nomatch h
  | .entryView _ _, h => nomatch h
  | .lazy _, h => nomatch h
  | .concat _ _, h => nomatch h
termination_by structural x => x

theorem Value.timeless_of_allCode : ∀ items : List Value, Value.allCode items = true →
    ∀ item ∈ items, item.Timeless
  | [], _ => List.forall_mem_nil _
  | v :: vs, h => by
    have h := Bool.and_eq_true_iff.1 h
    exact List.forall_mem_cons.2 ⟨Value.timeless_of_isCode v h.1, Value.timeless_of_allCode vs h.2⟩
termination_by structural x => x

end

namespace Value

/-- Forms that evaluation can trace without running a thunk: nothing is traced, or the form stands
for the same data in every state. -/
def Tellable (log : LogDomains) (form : Value) : Prop :=
  log.eval = true ∨ log.expand = true → form.Timeless

namespace Tellable
variable {log : LogDomains} {form : Value}

theorem of_timeless (h : form.Timeless) : form.Tellable log := fun _ => h

theorem isList {items : List Value} (hform : form.IsList items)
    (h : ∀ item ∈ items, item.Tellable log) : form.Tellable log :=
  fun hlog => .isList hform fun item hitem => h item hitem hlog

theorem vector {items : List Value} (h : ∀ item ∈ items, item.Tellable log) :
    (Value.vector items).Tellable log :=
  fun hlog => .vector fun item hitem => h item hitem hlog

theorem traced {w : World} (h : form.Tellable w.log) (domain : LogDomain)
    (hdomain : domain ≠ .read) (event : String → Event) : ∃ v, Idle w v ∧ ∃ n, ∀ m, n ≤ m →
      LazyLisp.traced (.ofBudget m) domain event form w = .ok () v := by
  cases hlog : w.log.isEnabled domain with
  | false =>
    refine ⟨w, .refl w, 0, fun m _ => ?_⟩
    rw [LazyLisp.traced, run_bind_ok (run_get w), hlog]
    rfl
  | true =>
    have htimeless : form.Timeless := by
      cases domain with
      | read => exact absurd rfl hdomain
      | eval => exact h (.inl hlog)
      | expand => exact h (.inr hlog)
    exact htimeless.traced domain event w

end Tellable
end Value

/-! What symbols mean. -/

/-- The binding of a symbol in the innermost layer that has one. -/
def meaningIn : List (List (Symbol × Value)) → Symbol → Option Value
  | [], _ => none
  | bindings :: outer, s => (newest bindings s).or (meaningIn outer s)

namespace World

/-- The bindings of the frames along a scope, innermost first. -/
inductive Layers (w : World) : Scope → List (List (Symbol × Value)) → Prop
  | outermost : Layers w none []
  | inside {id : FrameId} {f : Frame} {outer : List (List (Symbol × Value))}
      (hf : w.frames[id]? = some f) (hparent : ∀ p, f.parent = some p → p < id)
      (houter : Layers w f.parent outer) : Layers w (some id) (f.bindings :: outer)

namespace Layers
variable {w v : World} {scope : Scope} {layers : List (List (Symbol × Value))}

theorem keeps (h : Layers w scope layers) (hwv : KeepsFrames w v) : Layers v scope layers := by
  induction h with
  | outermost => exact .outermost
  | inside hf hparent _ ih => exact .inside (hwv.getElem? hf) hparent ih

theorem has (h : Layers w scope layers) : w.Has scope := by
  intro p hp
  subst hp
  cases h with
  | inside hf => exact (Array.getElem?_eq_some_iff.1 hf).1

theorem lookupFrames (h : Layers w scope layers) (s : Symbol) (n : Nat)
    (hn : ∀ id, scope = some id → id < n) :
    World.lookupFrames w.frames s n scope = meaningIn layers s := by
  induction h generalizing n with
  | outermost => cases n <;> rfl
  | @inside id f outer hf hparent _ ih =>
    obtain ⟨n, rfl⟩ := Nat.exists_eq_succ_of_ne_zero (Nat.ne_of_gt (Nat.zero_lt_of_lt (hn id rfl)))
    have hlookup : f.lookup? s = newest f.bindings s := rfl
    rw [World.lookupFrames, hf, meaningIn]
    dsimp only
    rw [hlookup]
    cases newest f.bindings s with
    | some v => rfl
    | none =>
      exact ih n fun p hp => Nat.lt_of_lt_of_le (hparent p hp) (Nat.le_of_lt_succ (hn id rfl))

theorem lookupScope? (h : Layers w scope layers) (s : Symbol) :
    w.lookupScope? scope s = meaningIn layers s := by
  exact h.lookupFrames s _ h.has

/-- A plain symbol means what the layers say, then the current namespace, then a var. -/
theorem resolve? (h : Layers w scope layers) (name : NameId) :
    w.resolve? scope (.plain name) = match meaningIn layers (.plain name) with
      | some v => some v
      | none => if name = Names.currentNs then some (.space w.current)
          else w.global? (.plain name) := by
  rw [← h.lookupScope?]
  rfl

end Layers

theorem Scoped.exists_layers {w : World} (hw : w.Scoped) {scope : Scope} (hscope : w.Has scope) :
    ∃ layers, w.Layers scope layers := by
  have hinside : ∀ id, id < w.frames.size → ∃ layers, w.Layers (some id) layers := by
    intro id
    -- a parent is older than its frame
    induction id using Nat.strong_induction_on with
    | _ id ih =>
      intro hid
      have hf := Array.getElem?_eq_getElem hid
      have hparent := fun p => hw.parent_lt id _ p hf
      have houter : ∃ layers, w.Layers (w.frames[id]).parent layers := by
        cases hp : (w.frames[id]).parent with
        | none => exact ⟨[], .outermost⟩
        | some p => exact ih p (hparent p hp) (Nat.lt_trans (hparent p hp) hid)
      obtain ⟨layers, hlayers⟩ := houter
      exact ⟨_, .inside hf hparent hlayers⟩
  cases scope with
  | none => exact ⟨[], .outermost⟩
  | some id => exact hinside id (hscope id rfl)

end World
end LazyLisp
