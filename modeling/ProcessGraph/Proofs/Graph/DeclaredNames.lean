import ProcessGraph.Proofs.Graph.CallDeclarations

/-!
# The names of declared parameters

`v.declaredNames` are the names in the parameters `v` of a process. A declaration leaves them as
they are if its name is among them, and adds its name at the end if not. So after declarations one
after the other there are the names from before, and behind them the new ones, once each and where
they first occur (`Value.newNames`, `declaredNames_declareEach`).

Names are compared like all values, and a declaration writes its own name over the one that it is
merged into. The lemmas suppose that names that are equal are the same one, as texts are.
-/

set_option autoImplicit false

namespace ProcessGraph

/-! ## Names that are new -/

namespace Value

/-- The names in a list of declarations. -/
def namesIn : List Value → List Value
  | [] => []
  | .dict d :: vs => field "name" d :: namesIn vs
  | _ :: vs => namesIn vs

/-- The names of the parameters of a process, in their order. -/
def declaredNames : Value → List Value
  | .list items => namesIn items
  | .tuple items => namesIn items
  | _ => []

theorem HasItems.declaredNames_eq {v : Value} {items : List Value} {whole : List Value → Value}
    {extend : Bool} (h : v.HasItems items whole extend) : v.declaredNames = namesIn items := by
  cases h <;> rfl

/-- Is the name equal to one of the names? -/
def isAmong (names : List Value) (name : Value) : Bool := names.any (·.same name)

/-- Those of the names that are not known, once each and where they first occur. -/
def newNames : List Value → List Value → List Value
  | _, [] => []
  | known, v :: vs =>
    if isAmong known v then newNames known vs else v :: newNames (known ++ [v]) vs

section
variable {known names more : List Value} {v : Value} {s : String}

theorem newNames_cons_of_known (h : isAmong known v) (vs : List Value) :
    newNames known (v :: vs) = newNames known vs := by
  rw [newNames, if_pos h]

theorem newNames_cons_of_new (h : ¬ isAmong known v) (vs : List Value) :
    newNames known (v :: vs) = v :: newNames (known ++ [v]) vs := by
  rw [newNames, if_neg h]

theorem isAmong_append :
    isAmong (known ++ names) v = (isAmong known v || isAmong names v) := List.any_append

theorem isAmong_cons {u : Value} : isAmong (u :: names) v = (u.same v || isAmong names v) := rfl

theorem isAmong_texts_iff : isAmong names (.str s) ↔ .str s ∈ names := by
  unfold isAmong
  rw [List.any_eq_true]
  constructor
  · rintro ⟨u, hu, same⟩
    rwa [← eq_str_of_same_str same]
  · intro hs
    exact ⟨.str s, hs, same_str_iff.2 rfl⟩

instance : Decidable (.str s ∈ names) := decidable_of_iff _ isAmong_texts_iff

theorem newNames_append :
    newNames known (names ++ more) =
      newNames known names ++ newNames (known ++ newNames known names) more := by
  induction names generalizing known with
  | nil => rw [newNames, List.nil_append, List.nil_append, List.append_nil]
  | cons v vs ih =>
    rw [List.cons_append]
    by_cases h : isAmong known v
    · rw [newNames_cons_of_known h, newNames_cons_of_known h, ih]
    · rw [newNames_cons_of_new h, newNames_cons_of_new h, ih, List.cons_append, List.append_assoc,
        List.singleton_append]

theorem newNames_cons (vs : List Value) :
    newNames known (v :: vs) =
      newNames known [v] ++ newNames (known ++ newNames known [v]) vs := by
  rw [← newNames_append, List.singleton_append]

theorem newNames_of_known (h : ∀ v ∈ names, isAmong known v) : newNames known names = [] := by
  induction names with
  | nil => rfl
  | cons v vs ih =>
    rw [newNames_cons_of_known (h v List.mem_cons_self)]
    exact ih fun v hv => h v (List.mem_cons_of_mem _ hv)

/-- With the new ones, all of the names are known. -/
theorem isAmong_newNames (self : v.same v) (h : v ∈ names) :
    isAmong (known ++ newNames known names) v := by
  induction names generalizing known with
  | nil => cases h
  | cons u vs ih =>
    by_cases hu : isAmong known u
    · rw [newNames_cons_of_known hu]
      rcases List.mem_cons.1 h with rfl | h
      · rw [isAmong_append, hu, Bool.true_or]
      · exact ih h
    · rw [newNames_cons_of_new hu]
      rcases List.mem_cons.1 h with rfl | h
      · rw [isAmong_append, isAmong_cons, self, Bool.true_or, Bool.or_true]
      · rw [← List.singleton_append, ← List.append_assoc]
        exact ih h

/-- Of names that are known or one and the same text, this text counts. -/
theorem newNames_of_only_text (only : ∀ v ∈ names, isAmong known v ∨ v = .str s)
    (mem : .str s ∈ names) : newNames known names = newNames known [.str s] := by
  induction names with
  | nil => cases mem
  | cons v vs ih =>
    have only' : ∀ v ∈ vs, isAmong known v ∨ v = .str s :=
      fun v hv => only v (List.mem_cons_of_mem _ hv)
    by_cases hv : v = .str s
    · subst hv
      -- Whatever follows is known once the text is.
      have later : ∀ v ∈ vs, isAmong (known ++ newNames known [.str s]) v := by
        intro v hv
        rcases only' v hv with hk | rfl
        · rw [isAmong_append, hk, Bool.true_or]
        · exact isAmong_newNames (same_str_iff.2 rfl) List.mem_cons_self
      rw [newNames_cons, newNames_of_known later, List.append_nil]
    · have hk := (only v List.mem_cons_self).resolve_right hv
      rw [newNames_cons_of_known hk]
      exact ih only' ((List.mem_cons.1 mem).resolve_left (Ne.symm hv))

theorem mem_of_mem_newNames (h : v ∈ newNames known names) : v ∈ names ∧ ¬ isAmong known v := by
  induction names generalizing known with
  | nil => cases h
  | cons u vs ih =>
    by_cases hu : isAmong known u
    · rw [newNames_cons_of_known hu] at h
      obtain ⟨mem, new⟩ := ih h
      exact ⟨List.mem_cons_of_mem _ mem, new⟩
    · rw [newNames_cons_of_new hu] at h
      rcases List.mem_cons.1 h with rfl | h
      · exact ⟨List.mem_cons_self, hu⟩
      · obtain ⟨mem, new⟩ := ih h
        rw [isAmong_append] at new
        exact ⟨List.mem_cons_of_mem _ mem, fun known => new (by rw [known, Bool.true_or])⟩

/-- No new name is equal to an earlier one. -/
theorem pairwise_newNames : (newNames known names).Pairwise fun v w => ¬ v.same w := by
  induction names generalizing known with
  | nil => exact .nil
  | cons u vs ih =>
    by_cases hu : isAmong known u
    · rw [newNames_cons_of_known hu]
      exact ih
    · rw [newNames_cons_of_new hu]
      refine .cons (fun w hw same => ?_) ih
      have new := (mem_of_mem_newNames hw).2
      rw [isAmong_append] at new
      exact new (by simp [isAmong, same])

/-- Of texts, those that do not occur are the new ones. -/
theorem newNames_texts (texts : List String) :
    newNames known (texts.map .str) =
      ((texts.filter fun s => .str s ∉ known).eraseDups).map .str := by
  induction texts generalizing known with
  | nil => rfl
  | cons s texts ih =>
    rw [List.map_cons]
    by_cases h : Value.str s ∈ known
    · rw [newNames_cons_of_known (isAmong_texts_iff.2 h), ih, List.filter_cons_of_neg (by simpa)]
    · rw [newNames_cons_of_new (fun among => h (isAmong_texts_iff.1 among)), ih,
        List.filter_cons_of_pos (by simpa), List.eraseDups_cons, List.map_cons, List.filter_filter]
      have same : ∀ t : String, (decide (Value.str t ∉ known ++ [.str s])) =
          (!t == s && decide (Value.str t ∉ known)) := by
        intro t
        by_cases ht : t = s <;> simp [ht]
      simp only [same]

theorem nodup_newNames_texts (texts : List String) : (newNames known (texts.map .str)).Nodup := by
  refine List.Pairwise.imp_of_mem (fun {v w} hv hw other => ?_) pairwise_newNames
  obtain ⟨s, -, rfl⟩ := List.mem_map.1 (mem_of_mem_newNames hv).1
  rintro rfl
  exact other (same_str_iff.2 rfl)

end

end Value

open Value

/-! ## Names after declarations -/

section
variable {d : Value.Entries} (hd : d.keys.Nodup)
include hd

/-- What is merged into a declaration of the same name leaves it that name. -/
theorem field_insertAll_of_eq {e : Value.Entries} (same : field "name" e = field "name" d) :
    field "name" (Dictionary.insertAll e d) = field "name" e := by
  have found := Dictionary.get?_insertAll (d := e) hd (.str "name")
  unfold field field? at same ⊢
  rw [found]
  cases written : Dictionary.get? (Scalar.str "name") d with
  | none => rfl
  | some v =>
    rw [written] at same
    exact same.symm

theorem namesIn_mergeOrExtend {extend : Bool} {items items' : List Value}
    (apart : ∀ u ∈ namesIn items, u.same (field "name" d) → u = field "name" d)
    (h : mergeOrExtend extend d items = .ok items') :
    namesIn items' = namesIn items ++ newNames (namesIn items) [field "name" d] := by
  induction items generalizing items' with
  | nil =>
    cases extend with
    | false => cases h
    | true =>
      cases h
      rfl
  | cons v rest ih =>
    by_cases hv : ∃ e, v = .dict e
    · obtain ⟨e, rfl⟩ := hv
      by_cases same : sameName e d
      · have eq := apart _ List.mem_cons_self same
        have known : isAmong (namesIn (.dict e :: rest)) (field "name" d) := by
          have same' : (field "name" e).same (field "name" d) = true := same
          simp [isAmong, namesIn, same']
        rw [mergeOrExtend_cons_same same] at h
        cases h
        rw [newNames_cons_of_known known, newNames, List.append_nil, namesIn, namesIn,
          field_insertAll_of_eq hd eq]
      · rw [mergeOrExtend_cons_other same] at h
        obtain ⟨items, merged, rfl⟩ := exists_of_map_eq_ok h
        have other : (field "name" e).same (field "name" d) = false := Bool.eq_false_iff.2 same
        have rest := ih (fun u hu => apart u (List.mem_cons_of_mem _ hu)) merged
        rw [namesIn, namesIn, rest, newNames, newNames, newNames, newNames, isAmong_cons, other,
          Bool.false_or]
        split <;> rfl
    · rw [mergeOrExtend_cons_of_ne fun e he => hv ⟨e, he⟩] at h
      cases h

/-- **What a declaration does to the names.** -/
theorem declaredNames_declare {v w : Value}
    (apart : ∀ u ∈ v.declaredNames, u.same (field "name" d) → u = field "name" d)
    (h : declare v d = .ok w) :
    w.declaredNames = v.declaredNames ++ newNames v.declaredNames [field "name" d] := by
  obtain ⟨items, whole, extend, has⟩ := exists_hasItems h
  rw [has.declare_eq] at h
  obtain ⟨items', merged, rfl⟩ := exists_of_map_eq_ok h
  rw [has.declaredNames_eq] at apart ⊢
  rw [(has.hasItems items').declaredNames_eq]
  exact namesIn_mergeOrExtend hd apart merged

end

/-- The names after declarations one after the other. -/
theorem declaredNames_declareEach {ds : List Value.Entries} {v w : Value}
    (hds : ∀ d ∈ ds, d.keys.Nodup)
    (apart : ∀ d ∈ ds, ∀ u ∈ v.declaredNames ++ ds.map (field "name"),
      u.same (field "name" d) → u = field "name" d)
    (h : declareEach ds v = .ok w) :
    w.declaredNames = v.declaredNames ++ newNames v.declaredNames (ds.map (field "name")) := by
  induction ds generalizing v with
  | nil =>
    cases h
    exact (List.append_nil _).symm
  | cons d ds ih =>
    rw [declareEach_cons] at h
    cases first : declare v d with
    | error e =>
      rw [first] at h
      cases h
    | ok u =>
      rw [first] at h
      have names := declaredNames_declare (hds d List.mem_cons_self)
        (fun x hx => apart d List.mem_cons_self x (List.mem_append_left _ hx)) first
      have all := ih (fun d hd => hds d (List.mem_cons_of_mem _ hd)) (fun d' hd' x hx => ?_) h
      · rw [all, names, List.map_cons, newNames_cons (ds.map _), List.append_assoc]
      · refine apart d' (List.mem_cons_of_mem _ hd') x ?_
        rw [names, List.append_assoc] at hx
        rw [List.map_cons]
        rcases List.mem_append.1 hx with hx | hx
        · exact List.mem_append_left _ hx
        · refine List.mem_append_right _ ?_
          rcases List.mem_append.1 hx with hx | hx
          · rw [List.mem_singleton.1 (mem_of_mem_newNames hx).1]
            exact List.mem_cons_self
          · exact List.mem_cons_of_mem _ hx

/-! ## Names on the root of a builder -/

namespace Workspace

/-- The names of the parameters that are declared on the root of a builder, in their order. -/
def parameterNames (ws : Workspace) (b : BuilderRef) : List Value :=
  (ws.builder (ws.root b)).metadata.parameters.declaredNames

/-- The names after parameters have been declared one after the other. -/
theorem Redeclares.parameterNames_eq {ws now : Workspace} {b : BuilderRef} {ps : List Parameter}
    (declared : Redeclares (ws.root b) ps ws now) (root : now.root b = ws.root b)
    (apart : ∀ p ∈ ps, ∀ u ∈ ws.parameterNames b ++ ps.map Parameter.name,
      u.same p.name → u = p.name) :
    now.parameterNames b =
      ws.parameterNames b ++ newNames (ws.parameterNames b) (ps.map Parameter.name) := by
  have names : (ps.map Parameter.declaration).map (field "name") = ps.map Parameter.name := by
    rw [List.map_map]
    rfl
  have all := declaredNames_declareEach (List.forall_mem_map.2 fun p _ => p.nodup_declaration)
    (List.forall_mem_map.2 fun p hp u hu => apart p hp u (names ▸ hu)) declared
  rw [names] at all
  unfold parameterNames
  rw [root]
  exact all

end Workspace

end ProcessGraph
