import ProcessGraph.Proofs.Client.Program
import ProcessGraph.Proofs.Graph.SimulatedChanges
import ProcessGraph.Proofs.Graph.SimulatedDocuments

/-!
# Clients cannot tell workspaces apart

If two workspaces match and a client starts with related values, then a program does the same in
both: it makes the same reports or fails in the same way (`Program.simulates`), and so do documents,
whose callbacks are programs (`documents_simulate`). The first is an induction on the program, for
documents that simulate each other; the second one on the depth of nesting, with the first for the
bodies of functions.
-/

set_option autoImplicit false

namespace ProcessGraph.Client

/-! ## Operands -/

section
variable {S : Scope} {R : Matching} (hknown : ∀ v, S.known v → Value.Related R v v)
  {vs ws : List Value} (hvs : List.Forall₂ (Value.Related R) vs ws)
include hknown hvs

namespace Operand

theorem eval_related {o : Operand} (ho : o.Respects S) :
    Outcome (Value.Related R) (o.eval vs) (o.eval ws) := by
  cases o with
  | given v => exact .ok (hknown v ho)
  | got i =>
    have hi := forall₂_getElem? hvs i
    simp only [eval]
    revert hi
    generalize vs[i]? = x
    generalize ws[i]? = y
    intro hi
    cases hi with
    | none => exact .error _
    | some hvw => exact .ok hvw

theorem builder_related {o : Operand} (ho : o.Respects S) :
    Outcome (fun b c => R (.builder b) (.builder c)) (o.builder vs) (o.builder ws) := by
  refine (eval_related hknown hvs ho).bind fun v w hvw => ?_
  cases hvw with
  | builder hbc => exact .ok hbc
  | _ => exact .error _

theorem node_related {o : Operand} (ho : o.Respects S) :
    Outcome (fun n m => R (.node n) (.node m)) (o.node vs) (o.node ws) := by
  refine (eval_related hknown hvs ho).bind fun v w hvw => ?_
  cases hvw with
  | node hnm => exact .ok hnm
  | _ => exact .error _

theorem access_related {o : Operand} (ho : o.Respects S) :
    Outcome (fun a d => R (.access a) (.access d)) (o.access vs) (o.access ws) := by
  refine (eval_related hknown hvs ho).bind fun v w hvw => ?_
  cases hvw with
  | access had => exact .ok had
  | _ => exact .error _

theorem evalAll_related {os : List Operand} (hos : ∀ o ∈ os, o.Respects S) :
    Outcome (List.Forall₂ (Value.Related R)) (evalAll vs os) (evalAll ws os) := by
  refine Outcome.mapM (P := fun o o' => o = o' ∧ o.Respects S) ?_ fun o o' ⟨e, ho⟩ => ?_
  · exact List.forall₂_same.2 fun o ho => ⟨rfl, hos o ho⟩
  · subst e
    exact eval_related hknown hvs ho

theorem evalEntries_related {d : List (Scalar × Operand)} (hd : ∀ p ∈ d, p.2.Respects S) :
    Outcome (Dictionary.Match (Value.Related R)) (evalEntries vs d) (evalEntries ws d) := by
  induction d with
  | nil => exact .ok .nil
  | cons p d ih =>
    refine (eval_related hknown hvs (hd p List.mem_cons_self)).bind fun v w hvw => ?_
    exact (ih fun q hq => hd q (List.mem_cons_of_mem _ hq)).bind
      fun e e' he => .ok (.cons p.1 hvw he)

end Operand

end

/-! ## Commands -/

/-- What clients of the scope do can be compared. -/
structure Scope.Suits (S : Scope) (C : Comparison) : Prop where
  admits : ∀ d, S.admits d → C.admits d
  changes : S.changes → C.FillsNew

structure Reply.Related (R : Matching) (x y : Reply) : Prop where
  value : Value.Related R x.value y.value
  seen : x.seen = y.seen

section
variable {C : Comparison} {p : Stage Workspace Workspace} (h : C.building.holds p)
include h

theorem simulates_replyNode {n m : NodeRef} (hnm : p.matching (.node n) (.node m)) :
    Simulates C.building p (replyNode n) (replyNode m) fun q => Reply.Related q.matching :=
  .get_bind (.pure h ⟨.node hnm, congrArg Value.str (h.pair hnm).id⟩)

omit h in
/-- A step that gives nothing is answered with nothing. -/
theorem simulates_silent {f g : Build Unit}
    (hfg : Simulates C.building p f g fun _ _ _ => True) :
    Simulates C.building p (f >>= fun _ => pure { value := .null })
      (g >>= fun _ => pure { value := .null }) fun q => Reply.Related q.matching :=
  hfg.bind fun _ _ _ _ hq _ => .pure hq ⟨.null, rfl⟩

variable {S : Scope} (hknown : ∀ v, S.known v → Value.Related p.matching v v)
  {vs ws : List Value} (hvs : List.Forall₂ (Value.Related p.matching) vs ws)
include hknown hvs

/-- A command for the builder that an operand stands for. -/
theorem simulates_onBuilder {b : Operand} (hb : b.Respects S) {f g : BuilderRef → Build Reply}
    (hfg : ∀ x y, p.matching (.builder x) (.builder y) →
      Simulates C.building p (f x) (g y) fun q => Reply.Related q.matching) :
    Simulates C.building p (Build.ofExcept (b.builder vs) >>= f)
      (Build.ofExcept (b.builder ws) >>= g) fun q => Reply.Related q.matching := by
  refine (Build.simulates_ofExcept h (Operand.builder_related hknown hvs hb)).bind
    fun q x y _ _ ⟨same, hxy⟩ => ?_
  subst same
  exact hfg x y hxy

/-- A command for the node that an operand stands for. -/
theorem simulates_onNode {n : Operand} (hn : n.Respects S) {f g : NodeRef → Build Reply}
    (hfg : ∀ x y, p.matching (.node x) (.node y) →
      Simulates C.building p (f x) (g y) fun q => Reply.Related q.matching) :
    Simulates C.building p (Build.ofExcept (n.node vs) >>= f)
      (Build.ofExcept (n.node ws) >>= g) fun q => Reply.Related q.matching := by
  refine (Build.simulates_ofExcept h (Operand.node_related hknown hvs hn)).bind
    fun q x y _ _ ⟨same, hxy⟩ => ?_
  subst same
  exact hfg x y hxy

/-- Commands of the scope simulate themselves. -/
theorem Command.simulates (suits : S.Suits C) {c : Command} (hc : c.Respects S) :
    Simulates C.building p (c.run vs) (c.run ws) fun q => Reply.Related q.matching := by
  cases c with
  | list items =>
    exact (Build.simulates_ofExcept h (Operand.evalAll_related hknown hvs hc)).bind
      fun q _ _ _ hq ⟨same, hxy⟩ => .pure hq ⟨same ▸ .list hxy, rfl⟩
  | tuple items =>
    exact (Build.simulates_ofExcept h (Operand.evalAll_related hknown hvs hc)).bind
      fun q _ _ _ hq ⟨same, hxy⟩ => .pure hq ⟨same ▸ .tuple hxy, rfl⟩
  | dict entries =>
    exact (Build.simulates_ofExcept h (Operand.evalEntries_related hknown hvs hc)).bind
      fun q _ _ _ hq ⟨same, hxy⟩ => .pure hq ⟨same ▸ .dict hxy, rfl⟩
  | parameter x =>
    exact (Build.simulates_newParameter h fun hx => suits.admits _ (hc hx)).bind
      fun q _ _ _ hq hrs => .pure hq ⟨.parameter hrs, rfl⟩
  | formula text =>
    exact (Build.simulates_createFormula h text).bind
      fun q _ _ _ hq hfg => .pure hq ⟨.formula hfg, rfl⟩
  | invoke b process arguments description space =>
    refine simulates_onBuilder h hknown hvs hc.1 fun x y hxy => ?_
    refine (Build.simulates_ofExcept h (Operand.eval_related hknown hvs hc.2)).bind
      fun q v w _ hq ⟨same, hvw⟩ => ?_
    subst same
    exact (Build.simulates_invoke hq hxy process hvw description space).bind
      fun r n m _ hr hnm => simulates_replyNode hr hnm
  | shortcut b name arguments named =>
    refine simulates_onBuilder h hknown hvs hc.1 fun x y hxy => ?_
    refine (Build.simulates_ofExcept h (Operand.evalAll_related hknown hvs hc.2.1)).bind
      fun q xs ys _ hq ⟨same, hxs⟩ => ?_
    subst same
    refine (Build.simulates_ofExcept h (Operand.evalEntries_related hknown hvs hc.2.2)).bind
      fun q d e _ hq ⟨same, hde⟩ => ?_
    subst same
    have found : q.left.findAttribute x name = q.right.findAttribute y name := by
      unfold Workspace.findAttribute
      rw [h.catalogOf_eq (.inl hxy)]
    refine .get_bind ?_
    rw [found]
    refine (Build.simulates_ofExcept (Q := Eq) h (.refl fun _ _ => rfl)).bind
      fun r a _ _ hr ⟨same, e⟩ => ?_
    subst same e
    cases a with
    | own name => exact .throw hr
    | shortcut process spec =>
      exact (Build.simulates_callShortcut hr hxy process spec hxs hde).bind
        fun t n m _ ht hnm => simulates_replyNode ht hnm
  | math b text =>
    refine simulates_onBuilder h hknown hvs hc fun x y hxy => ?_
    exact (Build.simulates_compile h hxy text false nofun).bind
      fun r n m _ hr hnm => simulates_replyNode hr hnm
  | callbackParameter b name =>
    refine simulates_onBuilder h hknown hvs hc fun x y hxy => ?_
    exact (Build.simulates_callbackParameter h hxy name).bind
      fun r a d _ hr had => .pure hr ⟨.access had, rfl⟩
  | element a key =>
    refine (Build.simulates_ofExcept h (Operand.access_related hknown hvs hc)).bind
      fun q x y _ hq ⟨same, hxy⟩ => ?_
    subst same
    exact (Build.simulates_elementAt hq hxy key).bind
      fun r n m _ hr hnm => simulates_replyNode hr hnm
  | generateId b name =>
    refine simulates_onBuilder h hknown hvs hc fun x y hxy => ?_
    exact (Build.simulates_generateId h hxy name).bind
      fun r i j _ hr same => .pure hr (same ▸ ⟨.str i, rfl⟩)
  | addParameter b declaration onRoot =>
    refine simulates_onBuilder h hknown hvs hc.1 fun x y hxy => simulates_silent ?_
    exact Build.simulates_addParameter h hxy onRoot fun root => suits.admits _ (hc.2 root)
  | setResult n result =>
    refine simulates_onNode h hknown hvs hc.2 fun x y hxy => simulates_silent ?_
    obtain ⟨newA, newB⟩ := Build.newNodes (suits.changes hc.1) h hxy
    exact Build.simulates_setResult h hxy newA newB result
  | setDescription n description =>
    refine simulates_onNode h hknown hvs hc.2 fun x y hxy => simulates_silent ?_
    obtain ⟨newA, newB⟩ := Build.newNodes (suits.changes hc.1) h hxy
    exact Build.simulates_setDescription h hxy newA newB description
  | setMetadata b field v =>
    exact simulates_onBuilder h hknown hvs hc.2 fun x y hxy =>
      simulates_silent (Build.simulates_setMetadata (suits.changes hc.1) h hxy field v)
  | setParent b n argument =>
    exact simulates_onBuilder h hknown hvs hc.2.1 fun x y hxy =>
      simulates_onNode h hknown hvs hc.2.2 fun u v huv =>
        simulates_silent (Build.simulates_setParent (suits.changes hc.1) h hxy huv argument)

end

/-! ## Hosts -/

/-- The functions have one body, which stays in the scope, and have captured related values. -/
structure Closure.Related (S : Scope) (R : Matching) (c d : Closure) : Prop where
  body : c.body = d.body
  respects : ∀ n, (d.body n).Respects S
  captured : List.Forall₂ (Value.Related R) c.captured d.captured

/-- What is given is the same on both sides, and related handles belong to related functions. -/
structure Host.Match (S : Scope) (R : Matching) (s t : Host) : Prop where
  known : ∀ v, S.known v → Value.Related R v v
  closures : ∀ f g, R (.callback f) (.callback g) → ∃ c d,
    s.closures[f]? = some c ∧ t.closures[g]? = some d ∧ c.Related S R d

theorem Closure.Related.mono {S : Scope} {R R' : Matching} {c d : Closure}
    (h : c.Related S R d) (hle : R ≤ R') : c.Related S R' d :=
  { h with captured := h.captured.imp fun _ _ => .mono hle }

theorem Host.Match.grow {S : Scope} {R R' : Matching} {s t : Host} (hR : R.Grows R')
    (h : s.Match S R t) : s.Match S R' t where
  known v hv := (h.known v hv).mono hR.le
  closures f g hfg := by
    obtain ⟨c, d, hc, hd, hcd⟩ := h.closures f g (hR.callback f g hfg)
    exact ⟨c, d, hc, hd, hcd.mono hR.le⟩

/-- The relation of hosts for documents: what the client has got does not matter and stays. -/
def functions (S : Scope) : HostRelation Host Host where
  holds R s t := s.Match S R t
  later x y := (x.1.closures <+: y.1.closures ∧ x.2.closures <+: y.2.closures) ∧
    y.1.values = x.1.values ∧ y.2.values = x.2.values
  refl _ := ⟨⟨List.prefix_rfl, List.prefix_rfl⟩, rfl, rfl⟩
  trans h h' := ⟨⟨h.1.1.trans h'.1.1, h.1.2.trans h'.1.2⟩, h'.2.1.trans h.2.1,
    h'.2.2.trans h.2.2⟩
  grow hR h := h.grow hR

/-- The relation of hosts for programs: what the clients have got is related. -/
def programs (S : Scope) : HostRelation Host Host where
  holds R s t := s.Match S R t ∧ List.Forall₂ (Value.Related R) s.values t.values
  later x y := x.1.closures <+: y.1.closures ∧ x.2.closures <+: y.2.closures
  refl _ := ⟨List.prefix_rfl, List.prefix_rfl⟩
  trans h h' := ⟨h.1.trans h'.1, h.2.trans h'.2⟩
  grow hR h := ⟨h.1.grow hR, h.2.imp fun _ _ => .mono hR.le⟩

section
variable {C : Comparison} {S : Scope} {p : Stage (World Host) (World Host)} {α β : Type}

theorem host_bind {f g : Host → Run Host α} {H : HostRelation Host Host}
    {Q : Stage (World Host) (World Host) → α → α → Prop}
    (h : Simulates (C.running H) p (f p.left.host) (g p.right.host) Q) :
    Simulates (C.running H) p (Run.host >>= f) (Run.host >>= g) Q := h

/-- Steps that leave alone what the clients have got. -/
theorem simulates_aside (h : (C.running (programs S)).holds p) {step step' : Run Host α}
    {Q : Stage (World Host) (World Host) → α → α → Prop}
    (hs : Simulates (C.running (functions S)) p step step' Q) :
    Simulates (C.running (programs S)) p step step' Q := by
  obtain ⟨R, ⟨le, gA, gB, prefixes, eA, eB⟩, hR, o⟩ := hs
  refine ⟨R, ⟨le, gA, gB, prefixes⟩, ⟨hR.1, hR.2, ?_⟩, o⟩
  dsimp only at eA eB ⊢
  rw [eA, eB]
  exact h.2.2.imp fun _ _ => .mono le

theorem run_attempt_ok {step : Run Host Reply} {w now : World Host} {r : Reply}
    (h : step.run w = (.ok r, now)) : (attempt step).run w =
      (.ok (.ok r.seen), { now with host.values := now.host.values ++ [r.value] }) := by
  simp only [attempt, ExceptT.run_mk, h]

theorem run_attempt_error {step : Run Host Reply} {w now : World Host} {e : Failure}
    (h : step.run w = (.error e, now)) : (attempt step).run w = (.ok (.error e), now) := by
  simp only [attempt, ExceptT.run_mk, h]

theorem simulates_attempt {step step' : Run Host Reply}
    (hs : Simulates (C.running (programs S)) p step step' fun q => Reply.Related q.matching) :
    Simulates (C.running (programs S)) p (attempt step) (attempt step') fun _ => Eq := by
  obtain ⟨R, ⟨le, gA, gB, prefixes⟩, hR, o⟩ := hs
  unfold Simulates
  rcases hA : step.run p.left with ⟨e | x, A⟩ <;> rcases hB : step'.run p.right with ⟨e' | y, B⟩ <;>
    rw [hA, hB] at gA gB prefixes hR o <;> cases o
  · rw [run_attempt_error hA, run_attempt_error hB]
    exact ⟨R, ⟨le, gA, gB, prefixes⟩, hR, .ok rfl⟩
  · rename_i hxy
    rw [run_attempt_ok hA, run_attempt_ok hB]
    refine ⟨R, ⟨le, gA, gB, prefixes⟩, ⟨hR.1, ⟨hR.2.1.known, hR.2.1.closures⟩, ?_⟩,
      .ok (congrArg Except.ok hxy.seen)⟩
    exact List.rel_append hR.2.2 (.cons hxy.value .nil)

theorem simulates_ofExcept {H : HostRelation Host Host} (h : (C.running H).holds p)
    {x : Except Failure α} {y : Except Failure β} {Q : α → β → Prop} (hxy : Outcome Q x y) :
    Simulates (C.running H) p (liftM (Build.ofExcept x) : Run Host α)
      (liftM (Build.ofExcept y) : Run Host β) fun q a b => q = p ∧ Q a b :=
  ⟨p.matching, (C.running H).refl p, h, hxy.mono fun _ _ hq => ⟨rfl, hq⟩⟩

/-- Functions with one body that have captured related values are related from now on. -/
theorem simulates_define (h : (C.running (programs S)).holds p) (positional : Nat)
    (variadic : Bool) {c d : Closure} (hcd : c.Related S p.matching d) :
    Simulates (C.running (programs S)) p
      (Run.changeHost fun host => host.define positional variadic c)
      (Run.changeHost fun host => host.define positional variadic d) fun _ _ _ => True := by
  generalize hR : p.matching.add (.callback p.left.host.closures.length)
    (.callback p.right.host.closures.length) = R
  have le : p.matching ≤ R := hR ▸ p.matching.le_add _ _
  have matching : C.Matches R p.left.workspace p.right.workspace := by
    have adds := fun ws => Workspace.Adds.refl ws
    rw [← hR]
    exact h.1.extend (adds _) (adds _) h.1.left h.1.right ⟨trivial, trivial⟩ trivial trivial
      (h.1.callbackParameters_add (adds _) (adds _) (by rintro _ ⟨⟩) (by rintro _ ⟨⟩))
  refine ⟨R, ⟨le, .refl _, .refl _, List.prefix_append .., List.prefix_append ..⟩,
    ⟨matching, ⟨fun v hv => (h.2.1.known v hv).mono le, fun f g hfg => ?_⟩, ?_⟩, .ok trivial⟩
  · rw [← hR] at hfg
    rcases hfg with hfg | ⟨hf, hg⟩
    · obtain ⟨c', d', hc, hd, hcd'⟩ := h.2.1.closures f g hfg
      exact ⟨c', d', List.getElem?_append_left (List.getElem?_eq_some_iff.1 hc).1 ▸ hc,
        List.getElem?_append_left (List.getElem?_eq_some_iff.1 hd).1 ▸ hd, hcd'.mono le⟩
    · cases hf
      cases hg
      exact ⟨c, d, List.getElem?_concat_length .., List.getElem?_concat_length .., hcd.mono le⟩
  · refine List.rel_append (h.2.2.imp fun _ _ => .mono le) (.cons (.callback ?_ rfl rfl) .nil)
    exact hR ▸ Matching.add_self ..

end

/-! ## Programs -/

/-- Documents of related builders and nodes are equal. -/
def SimulateDocuments (C : Comparison) (S : Scope) (documents documents' : Documents Host) : Prop :=
  Documents.SimulateBuilders C (functions S) documents.builder documents'.builder ∧
  ∀ {p : Stage (World Host) (World Host)} {n m : NodeRef},
    (C.running (functions S)).holds p → p.matching (.node n) (.node m) →
    Simulates (C.running (functions S)) p (documents.node n) (documents'.node m) fun _ => Eq

section
variable {C : Comparison} {S : Scope} (suits : S.Suits C)

theorem simulates_replyDocument {documents documents' : Documents Host}
    (hdocuments : SimulateDocuments C S documents documents')
    {p : Stage (World Host) (World Host)} (h : (C.running (programs S)).holds p) {v w : Value}
    (hvw : Value.Related p.matching v w) :
    Simulates (C.running (programs S)) p (replyDocument documents v) (replyDocument documents' w)
      fun q => Reply.Related q.matching := by
  have outside : (C.running (functions S)).holds p := ⟨h.1, h.2.1⟩
  cases hvw with
  | builder hbc =>
    exact (simulates_aside h (hdocuments.1 outside hbc)).bind
      fun q x y _ hq e => .pure hq ⟨.null, e⟩
  | node hnm =>
    exact (simulates_aside h (hdocuments.2 outside hnm)).bind
      fun q x y _ hq e => .pure hq ⟨.null, e⟩
  | _ => exact .throw h

include suits

/-- Programs of the scope simulate themselves. -/
theorem Program.simulates {documents documents' : Documents Host}
    (hdocuments : SimulateDocuments C S documents documents') {program : Program}
    (hprogram : program.Respects S) {p : Stage (World Host) (World Host)}
    (h : (C.running (programs S)).holds p) :
    Simulates (C.running (programs S)) p (program.run documents) (program.run documents')
      fun q => Reply.Related q.matching := by
  induction program generalizing p with
  | finish result report =>
    refine host_bind ((simulates_ofExcept h (Operand.eval_related h.2.1.known h.2.2 hprogram)).bind
      fun q v w _ hq ⟨same, hvw⟩ => .pure hq ⟨?_, rfl⟩)
    subst same
    exact hvw
  | fail e => exact .throw h
  | command c next ih =>
    refine (simulates_attempt (host_bind (Run.simulates_lift h
      (Command.simulates h.1 h.2.1.known h.2.2 suits hprogram.1)))).bind
      fun q x y _ hq same => ?_
    subst same
    exact ih x (hprogram.2 x) hq
  | document object next ih =>
    refine (simulates_attempt (host_bind ((simulates_ofExcept h
      (Operand.eval_related h.2.1.known h.2.2 hprogram.1)).bind fun q v w _ hq ⟨same, hvw⟩ =>
      simulates_replyDocument hdocuments hq (same ▸ hvw)))).bind fun q x y _ hq same => ?_
    subst same
    exact ih x (hprogram.2 x) hq
  | function positional variadic captured body next ihBody ih =>
    refine host_bind ((simulates_ofExcept h
      (Operand.evalAll_related h.2.1.known h.2.2 hprogram.1)).bind
      fun q vs ws _ hq ⟨same, hvs⟩ => ?_)
    subst same
    exact (simulates_define hq positional variadic (c := ⟨body, vs⟩) (d := ⟨body, ws⟩)
      ⟨rfl, hprogram.2.1, hvs⟩).bind
      fun r _ _ _ hr _ => ih hprogram.2.2 hr
  | atomic b body next ihBody ih =>
    refine (simulates_attempt (host_bind ((simulates_ofExcept h
      (Operand.builder_related h.2.1.known h.2.2 hprogram.1)).bind
      fun q b c _ hq ⟨same, hbc⟩ => ?_))).bind fun q x y _ hq same => ?_
    · subst same
      exact Run.simulates_atomically hq hbc (ihBody hprogram.2.1 hq)
    · subst same
      exact ih x (hprogram.2.2 x) hq

omit suits in
theorem run_call {documents : Documents Host} {f : Callback} {vs : List Value} {w : World Host}
    {c : Closure} (hc : w.host.closures[f.handle]? = some c) :
    (call documents f vs).run w =
      let (result, now) := ((c.body vs.length).run documents).run
        { w with host.values := c.captured ++ vs }
      (result.map Reply.value, { now with host.values := w.host.values }) := by
  unfold call
  rw [ExceptT.run_mk]
  generalize w.host.closures[f.handle]? = found at hc
  subst hc
  rfl

/-- Calls of functions are programs on related values. -/
theorem simulates_call {documents documents' : Documents Host}
    (hdocuments : SimulateDocuments C S documents documents') :
    Documents.SimulateCalls C (functions S) (call documents) (call documents') := by
  intro p f g vs ws h hfg hvs
  cases hfg with
  | callback hfg _ _ =>
    obtain ⟨c, d, hc, hd, hcd⟩ := h.2.closures _ _ hfg
    have start : (C.running (programs S)).holds
        ⟨p.matching, { p.left with host.values := c.captured ++ vs },
          { p.right with host.values := d.captured ++ ws }⟩ :=
      ⟨h.1, ⟨h.2.known, h.2.closures⟩, List.rel_append hcd.captured hvs⟩
    have hbody := Program.simulates suits hdocuments (hcd.respects ws.length) start
    unfold Simulates at hbody ⊢
    rw [run_call hc, run_call hd, hcd.body, hvs.length_eq]
    revert hbody
    generalize ((d.body ws.length).run documents).run
      { p.left with host.values := c.captured ++ vs } = A
    generalize ((d.body ws.length).run documents').run
      { p.right with host.values := d.captured ++ ws } = B
    rintro ⟨R, ⟨le, gA, gB, prefixes⟩, hR, o⟩
    obtain ⟨x, A⟩ := A
    obtain ⟨y, B⟩ := B
    refine ⟨R, ⟨le, gA, gB, prefixes, rfl, rfl⟩, ⟨hR.1, hR.2.1.known, hR.2.1.closures⟩, ?_⟩
    cases o with
    | ok hxy => exact .ok hxy.value
    | error e => exact .error e

/-- Documents simulate themselves, however deep their callbacks are nested. -/
theorem documents_simulate (n : Nat) : SimulateDocuments C S (documents n) (documents n) := by
  induction n with
  | zero => exact ⟨fun h _ => .throw h, fun h _ => .throw h⟩
  | succ n ih =>
    have hcall : Documents.SimulateCalls C (functions S) (call (documents n))
        (call (documents n)) := simulates_call suits ih
    exact ⟨fun h hbc => Documents.simulates_ofBuilder ih.1 hcall h hbc,
      fun h hnm => Documents.simulates_ofNode ih.1 hcall h (.of_related h.1 hnm)⟩

end

end ProcessGraph.Client
