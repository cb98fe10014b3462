import Hamn.Tui.Screen

/-!
# Owner — what a screen holds belongs to its workspace

A screen's lists, saved screens and confirmations are commands of its own workspace, and its request is a list of it.
Every operation of `Screen` keeps this (`Screen.Ok`), the workspace and the account of changes (`Screen.Keeps`).
-/

namespace Hamn.Tui

/-- The first words of the requests of a workspace. -/
def Workspace.heads : Workspace → List String
  | .containers => ["docker", "vm"]
  | .kubernetes => ["k8s"]

/-- The request is one of the workspace. -/
def Request.In (r : Request) (w : Workspace) : Prop := ∃ head ∈ w.heads, r.words.head? = some head

/-- What is shown is a list of the workspace. -/
structure ViewOk (w : Workspace) (native : Option Invocation) (request : Request) (environmentPicker : Bool) : Prop where
  native : ∀ i ∈ native, i.workspace = w
  owner : request.In w
  list : request.words.getLast? = some "list"
  picker : environmentPicker = true → w = .containers

structure Screen.Ok (s : Screen) : Prop where
  view : ViewOk s.workspace s.native s.request s.environmentPicker
  browser : ∀ b ∈ s.browser, ViewOk s.workspace b.native b.request b.environmentPicker
  pickerReturn : ∀ b ∈ s.pickerReturn, ViewOk s.workspace b.native b.request b.environmentPicker
  pending : ∀ r ∈ s.pending, r.mutates = true ∧ r.In s.workspace
  pendingNative : ∀ a ∈ s.pendingNative, a.invocation.workspace = s.workspace ∧ a.invocation.resetSelection = false
  forward : ∀ f ∈ s.forward, f.1.workspace = s.workspace

/-- `t` is in the workspace of `s`, with the same account of changes and nothing that is foreign. -/
structure Screen.Keeps (s t : Screen) : Prop where
  workspace : t.workspace = s.workspace
  status : t.operationStatus = s.operationStatus
  uncertain : t.uncertain = s.uncertain
  ok : t.Ok

/-! ## Requests -/

namespace Request

theorem In.owner {r : Request} {w : Workspace} (h : r.In w) : r.owner = w := by
  obtain ⟨head, hmem, hhead⟩ := h
  unfold Request.owner
  rw [hhead]
  cases w with
  | containers =>
    rw [if_neg]
    rintro ⟨⟩
    exact absurd hmem (by decide)
  | kubernetes =>
    obtain rfl := List.mem_singleton.mp hmem
    rfl

theorem In.of_head {r : Request} {w : Workspace} {head : String} (hmem : head ∈ w.heads)
    (h : r.words.head? = some head) : r.In w := ⟨head, hmem, h⟩

/-- The first word begins the operation. -/
theorem joined_prefix {words : List String} {word : String} (h : words.head? = some word) :
    word.toList <+: (joined words).toList := by
  cases words with
  | nil => cases h
  | cons w rest =>
    obtain rfl := Option.some.inj h
    cases rest with
    | nil => exact List.prefix_refl _
    | cons w' rest =>
      rw [joined, String.toList_append, String.toList_append, List.append_assoc]
      · exact List.prefix_append _ _
      · exact List.cons_ne_nil _ _

/-- The first word of a request of a workspace is one of its operation. -/
theorem In.operation {r : Request} {w : Workspace} (h : r.In w) :
    ∃ head ∈ w.heads, head.toList <+: r.operation.toList := by
  obtain ⟨head, hmem, hhead⟩ := h
  exact ⟨head, hmem, joined_prefix hhead⟩

/-- An operation that no first word of a workspace begins is none of the workspace. -/
theorem In.ne_of_operation {r : Request} {w w' : Workspace} {operation : String} (h : r.In w)
    (heq : r.operation = operation) (hop : ∀ head ∈ w'.heads, ¬ head.toList <+: operation.toList) : w ≠ w' := by
  rintro rfl
  obtain ⟨head, hmem, hpre⟩ := h.operation
  rw [heq] at hpre
  exact hop head hmem hpre

theorem heads_unknown (w : Workspace) : ∀ head ∈ w.heads, OPERATIONS.any (fun op => op.1 == head) = false := by
  cases w <;> decide

/-- The request of a workspace has a word after the first one, if its operation is known. -/
theorem In.two_words {r : Request} {w : Workspace} (h : r.In w) (hknown : r.known = true) : 2 ≤ r.words.length := by
  obtain ⟨head, hmem, hhead⟩ := h
  match hw : r.words with
  | [] =>
    rw [hw] at hhead
    cases hhead
  | [word] =>
    rw [hw] at hhead
    obtain rfl : word = head := Option.some.inj hhead
    have halone : OPERATIONS.any (fun op => op.1 == word) = true := by
      change OPERATIONS.any (fun op => op.1 == Request.joined r.words) = true at hknown
      rwa [hw] at hknown
    rw [heads_unknown w word hmem] at halone
    cases halone
  | _ :: _ :: _ => simp

theorem withLast_head {r : Request} {word : String} (h : 2 ≤ r.words.length) :
    (r.withLast word).words.head? = r.words.head? := by
  match hw : r.words with
  | [] => rw [hw] at h; simp at h
  | [_] => rw [hw] at h; simp at h
  | a :: b :: rest =>
    unfold withLast
    rw [hw]
    rfl

theorem In.withLast {r : Request} {w : Workspace} {word : String} (h : r.In w) (h2 : 2 ≤ r.words.length) :
    (r.withLast word).In w := by
  obtain ⟨head, hmem, hhead⟩ := h
  exact ⟨head, hmem, (withLast_head h2).trans hhead⟩

/-- A list of a workspace has a word before the last one. -/
theorem In.list_two {r : Request} {w : Workspace} (h : r.In w) (hlist : r.words.getLast? = some "list") :
    2 ≤ r.words.length := by
  obtain ⟨head, hmem, hhead⟩ := h
  match hw : r.words with
  | [] =>
    rw [hw] at hhead
    cases hhead
  | [word] =>
    rw [hw] at hhead hlist
    obtain rfl : word = head := Option.some.inj hhead
    obtain rfl : word = "list" := Option.some.inj hlist
    cases w <;> exact absurd hmem (by decide)
  | _ :: _ :: _ => simp

end Request

/-! ## Invocations -/

/-- A command runs in the workspace that it names, or that of the screen. -/
theorem parse_workspace {env : Env} {text : Word} {scope : Scope} {i : Invocation}
    (h : parse env text scope = .ok i) : i.workspace = commandWorkspace text scope.workspace ∨
      i.workspace = scope.workspace := by
  unfold parse at h
  obtain ⟨typed, htyped, h⟩ := Result.bind_eq_ok.mp h
  have hi : i.workspace = (program typed scope.workspace).1 := by
    rcases hc : commandWords env typed scope with ⟨workspace, args, plugin⟩
    have hworkspace : workspace = (program typed scope.workspace).1 := (congrArg Prod.fst hc).symm
    unfold parseWords at h
    rw [hc] at h
    simp only at h
    split_ifs at h
    · cases h
      exact hworkspace
    · obtain ⟨⟨defaults, profile⟩, _, h⟩ := Result.bind_eq_ok.mp h
      cases h
      exact hworkspace
  rw [hi]
  unfold commandWorkspace
  rw [htyped]
  cases typed with
  | nil =>
    right
    cases scope.workspace <;> rfl
  | cons first rest =>
    unfold program
    simp only [List.head?_cons]
    by_cases hd : first = "docker".toList
    · simp [hd]
    · by_cases hk : first = "kubectl".toList
      · left
        rw [if_neg hd, if_pos hk, if_neg, if_pos (Or.inl hk)]
        rw [hk]
        decide
      · right
        rw [if_neg hd, if_neg hk]

namespace Screen

variable {lib : Lib} {ask : Answers} {s t u : Screen}

/-! ## Nothing new -/

theorem Keeps.refl (h : s.Ok) : Keeps s s := ⟨rfl, rfl, rfl, h⟩

theorem Keeps.trans (h : Keeps s t) (h' : Keeps t u) : Keeps s u :=
  ⟨h'.workspace.trans h.workspace, h'.status.trans h.status, h'.uncertain.trans h.uncertain, h'.ok⟩

/-- What `t` holds is held by `s`, and the request is for the same list. -/
structure Fewer (s t : Screen) : Prop where
  workspace : t.workspace = s.workspace
  words : t.request.words = s.request.words
  native : ∀ i ∈ t.native, i ∈ s.native
  picker : t.environmentPicker = true → s.environmentPicker = true
  browser : ∀ b ∈ t.browser, b ∈ s.browser
  pickerReturn : ∀ b ∈ t.pickerReturn, b ∈ s.pickerReturn
  pending : ∀ r ∈ t.pending, r ∈ s.pending
  pendingNative : ∀ a ∈ t.pendingNative, a ∈ s.pendingNative
  forward : ∀ f ∈ t.forward, f ∈ s.forward
  status : t.operationStatus = s.operationStatus
  uncertain : t.uncertain = s.uncertain

theorem Fewer.keeps (h : Fewer s t) (hs : s.Ok) : Keeps s t := by
  refine ⟨h.workspace, h.status, h.uncertain, ?_⟩
  have hin : t.request.In s.workspace := by
    unfold Request.In
    rw [h.words]
    exact hs.view.owner
  have hlist : t.request.words.getLast? = some "list" := by
    rw [h.words]
    exact hs.view.list
  constructor
  · rw [h.workspace]
    exact ⟨fun i hi => hs.view.native i (h.native i hi), hin, hlist, fun hp => hs.view.picker (h.picker hp)⟩
  · rw [h.workspace]
    exact fun b hb => hs.browser b (h.browser b hb)
  · rw [h.workspace]
    exact fun b hb => hs.pickerReturn b (h.pickerReturn b hb)
  · rw [h.workspace]
    exact fun r hr => hs.pending r (h.pending r hr)
  · rw [h.workspace]
    exact fun a ha => hs.pendingNative a (h.pendingNative a ha)
  · rw [h.workspace]
    exact fun f hf => hs.forward f (h.forward f hf)

/-- The same is held. -/
theorem Fewer.of_eq (h : t.workspace = s.workspace ∧ t.request.words = s.request.words ∧ t.native = s.native ∧
    t.environmentPicker = s.environmentPicker ∧ t.forward = s.forward) (hb : t.browser = s.browser)
    (hp : t.pickerReturn = s.pickerReturn) (hpending : t.pending = s.pending)
    (hnative : t.pendingNative = s.pendingNative) (hstatus : t.operationStatus = s.operationStatus)
    (huncertain : t.uncertain = s.uncertain) : Fewer s t := by
  obtain ⟨h1, h2, h3, h4, h5⟩ := h
  exact ⟨h1, h2, fun i hi => h3 ▸ hi, fun hp => h4 ▸ hp, fun b h => hb ▸ h, fun b h => hp ▸ h, fun r h => hpending ▸ h,
    fun a h => hnative ▸ h, fun f hf => h5 ▸ hf, hstatus, huncertain⟩

theorem Fewer.refl (s : Screen) : Fewer s s := Fewer.of_eq ⟨rfl, rfl, rfl, rfl, rfl⟩ rfl rfl rfl rfl rfl rfl

/-! ### Operations of `State` -/

/-- The list on the screen, its request and the prompt's target are the same. -/
structure SameView (s t : State Invocation) : Prop where
  workspace : t.workspace = s.workspace
  request : t.request = s.request
  native : t.native = s.native
  picker : t.environmentPicker = s.environmentPicker
  forward : t.forward = s.forward

theorem SameView.refl (s : State Invocation) : SameView s s := ⟨rfl, rfl, rfl, rfl, rfl⟩

theorem SameView.trans {s t u : State Invocation} (h : SameView s t) (h' : SameView t u) : SameView s u :=
  ⟨h'.workspace.trans h.workspace, h'.request.trans h.request, h'.native.trans h.native, h'.picker.trans h.picker,
    h'.forward.trans h.forward⟩

theorem SameView.fewer {t : State Invocation} (h : SameView s.toState t) : Fewer s { s with toState := t } :=
  Fewer.of_eq ⟨h.workspace, congrArg Request.words h.request, h.native, h.picker, h.forward⟩ rfl rfl rfl rfl rfl rfl

theorem followRowDetail_view (s : State Invocation) : SameView s (s.followRowDetail lib) := by
  unfold State.followRowDetail
  split
  · exact ⟨rfl, rfl, rfl, rfl, rfl⟩
  · split_ifs
    · exact ⟨rfl, rfl, rfl, rfl, rfl⟩
    · simp only
      split <;> exact ⟨rfl, rfl, rfl, rfl, rfl⟩

theorem acceptValue_view (s : State Invocation) (value : Value) : SameView s (s.acceptValue lib value) := by
  unfold State.acceptValue
  split_ifs
  · have hrows : SameView s (s.updateRows lib value) := ⟨rfl, rfl, rfl, rfl, rfl⟩
    obtain ⟨h1, h2, h3, h4, h5⟩ := hrows.trans (@followRowDetail_view lib _)
    exact ⟨h1, h2, h3, h4, h5⟩
  · exact ⟨rfl, rfl, rfl, rfl, rfl⟩

theorem accept_view (s : State Invocation) (result : Except Failure Value) : SameView s (s.accept lib result) := by
  unfold State.accept
  split
  · unfold State.acceptFailure
    split_ifs <;> exact ⟨rfl, rfl, rfl, rfl, rfl⟩
  · split_ifs
    · exact ⟨rfl, rfl, rfl, rfl, rfl⟩
    · exact ⟨rfl, rfl, rfl, rfl, rfl⟩
    · exact ⟨rfl, rfl, rfl, rfl, rfl⟩
    · obtain ⟨h1, h2, h3, h4, h5⟩ := @acceptValue_view lib { s with loading := false, refreshing := false } ‹_›
      exact ⟨h1, h2, h3, h4, h5⟩

theorem editInput_view (s : State Invocation) (text : String) (backspace : Bool) :
    SameView s (s.editInput lib text backspace) := by
  unfold State.editInput
  split
  · exact SameView.refl s
  · simp only
    split_ifs <;> exact ⟨rfl, rfl, rfl, rfl, rfl⟩

theorem completeInput_view (s : State Invocation) (suggestion : String → Option String) :
    SameView s (s.completeInput lib suggestion) := by
  unfold State.completeInput
  split
  · split
    · exact editInput_view s _ _
    · exact SameView.refl s
  · exact SameView.refl s

theorem recallCommand_view (s : State Invocation) (previous : Bool) : SameView s (s.recallCommand previous) := by
  unfold State.recallCommand
  split
  · split_ifs
    · exact SameView.refl s
    · simp only
      split <;> exact ⟨rfl, rfl, rfl, rfl, rfl⟩
  · exact SameView.refl s

theorem rememberCommand_view (s : State Invocation) (command : String) : SameView s (s.rememberCommand command) := by
  unfold State.rememberCommand
  simp only
  split_ifs <;> exact ⟨rfl, rfl, rfl, rfl, rfl⟩

/-! ### Operations of `Screen` -/

theorem invalidateResults_fewer (s : Screen) : Fewer s s.invalidateResults where
  workspace := rfl
  words := rfl
  native := fun _ h => h
  picker := fun h => h
  browser := fun _ h => nomatch h
  pickerReturn := fun _ h => nomatch h
  pending := fun _ h => h
  pendingNative := fun _ h => nomatch h
  forward := fun _ h => nomatch h
  status := rfl
  uncertain := rfl

theorem moveBy_fewer (s : Screen) (delta : ℤ) : Fewer s (s.moveBy lib delta) := by
  unfold moveBy
  simp only
  split_ifs
  · exact Fewer.refl s
  · exact Fewer.of_eq ⟨rfl, rfl, rfl, rfl, rfl⟩ rfl rfl rfl rfl rfl rfl
  all_goals split <;> exact Fewer.of_eq ⟨rfl, rfl, rfl, rfl, rfl⟩ rfl rfl rfl rfl rfl rfl

theorem showRowDetail_fewer (s : Screen) (row : Value) : Fewer s { s with toState := s.showRowDetail lib row } :=
  SameView.fewer ⟨rfl, rfl, rfl, rfl, rfl⟩

theorem editSettings_fewer (s : Screen) : Fewer s (s.editSettings lib) := by
  unfold editSettings
  split
  · exact Fewer.refl s
  · split
    · exact showRowDetail_fewer s _
    · exact Fewer.of_eq ⟨rfl, rfl, rfl, rfl, rfl⟩ rfl rfl rfl rfl rfl rfl

/-! ## Something new -/

/-- A list of the screen's workspace is shown. -/
theorem Ok.withNative (hs : s.Ok) {native : Option Invocation} (hn : ∀ i ∈ native, i.workspace = s.workspace) :
    Keeps s { s with native := native } := by
  refine ⟨rfl, rfl, rfl, ?_⟩
  exact { hs with view := { hs.view with native := hn } }

/-- A list that the screen's commands name. -/
theorem parse_empty {i : Invocation} (h : s.parse ask "" = .ok i) : i.workspace = s.workspace := by
  rcases parse_workspace h with h | h <;> exact h

theorem openList_keeps (hs : s.Ok) : Keeps s (s.openList ask).1 := by
  unfold openList
  cases h : s.parse ask "" with
  | ok i =>
    refine hs.withNative ?_
    rintro _ ⟨⟩
    exact parse_empty h
  | error failure => exact Keeps.refl hs

/-! ### Screens that Esc returns to -/

theorem Ok.snapshot (hs : s.Ok) :
    ViewOk s.workspace s.snapshot.native s.snapshot.request s.snapshot.environmentPicker := hs.view

theorem restore_keeps (hs : s.Ok) {b : Browser} (hb : ViewOk s.workspace b.native b.request b.environmentPicker) :
    Keeps s (s.restore b) := ⟨rfl, rfl, rfl, { hs with view := hb }⟩

theorem saveBrowser_keeps (hs : s.Ok) : Keeps s s.saveBrowser := by
  unfold saveBrowser
  split_ifs
  · refine ⟨rfl, rfl, rfl, { hs with browser := ?_ }⟩
    rintro _ ⟨⟩
    exact hs.snapshot
  · exact Keeps.refl hs

theorem openPicker_keeps (hs : s.Ok) : Keeps s s.openPicker := by
  have hview : ViewOk s.workspace none s.request false :=
    { hs.view with native := fun _ h => (nomatch h), picker := fun h => (nomatch h) }
  refine ⟨rfl, rfl, rfl, { hs with view := hview, pickerReturn := ?_ }⟩
  rintro _ ⟨⟩
  cases hp : s.pickerReturn with
  | none => exact hs.snapshot
  | some b => exact hs.pickerReturn b hp

theorem cancelPicker_keeps (hs : s.Ok) (h : s.cancelPicker = some t) : Keeps s t := by
  unfold cancelPicker at h
  obtain ⟨b, hb, rfl⟩ := Option.map_eq_some_iff.mp h
  have hleft : Fewer s { s with pickerReturn := none } :=
    { Fewer.refl s with pickerReturn := fun _ h => (nomatch h) }
  exact (hleft.keeps hs).trans (restore_keeps (hleft.keeps hs).ok (hs.pickerReturn b hb))

theorem returnToBrowser_keeps (hs : s.Ok) (hw : s.workspace = .containers) : Keeps s (s.returnToBrowser ask) := by
  set t : Screen := { s with
    environmentPicker := false
    detail := none
    request := { s.request with words := ["docker", "containers", "list"] }
    browser := none } with ht
  have hview : ViewOk s.workspace s.native t.request false := by
    refine ⟨hs.view.native, ⟨"docker", ?_, rfl⟩, rfl, fun h => nomatch h⟩
    rw [hw]
    exact List.mem_cons_self
  have hleft : Keeps s t := ⟨rfl, rfl, rfl, { hs with view := hview, browser := fun _ h => (nomatch h) }⟩
  unfold returnToBrowser
  simp only
  split
  · rename_i b hb
    have hmem : b ∈ s.browser := by
      rw [Option.filter_eq_some_iff] at hb
      exact hb.1
    exact hleft.trans (restore_keeps hleft.ok (hs.browser b hmem))
  · refine hleft.trans ?_
    have hnative := @Ok.withNative _ hleft.ok (t.parse ask "").toOption (by
      intro i hi
      cases hparse : t.parse ask "" with
      | ok j =>
        rw [hparse] at hi
        obtain rfl := Option.some.inj hi
        exact parse_empty hparse
      | error failure =>
        rw [hparse] at hi
        cases hi)
    refine hnative.trans (Fewer.keeps ?_ hnative.ok)
    exact Fewer.of_eq ⟨rfl, rfl, rfl, rfl, rfl⟩ rfl rfl rfl rfl rfl rfl

/-! ### Structured commands -/

theorem tryParse_head {typed : List Word} {r : Request} (h : tryParse ask typed = .ok r) :
    ∃ head rest, typed = head :: rest ∧ r.words.head? = some (String.ofList head) := by
  cases typed with
  | nil => cases h
  | cons head rest =>
    change (ask.parsed rest).map (fun r => ({ r with words := String.ofList head :: r.words } : Request)) = .ok r at h
    cases hp : ask.parsed rest with
    | error failure =>
      rw [hp] at h
      cases h
    | ok parsed =>
      rw [hp] at h
      cases h
      exact ⟨head, rest, rfl, rfl⟩

theorem normalize_head {r r' : Request} (h : normalize r = .ok r') : r'.words.head? = r.words.head? := by
  unfold normalize at h
  split_ifs at h with hlen hname
  · cases h
    match r.words, hlen with
    | [_, _, _, _], _ => rfl
  · cases h
    rfl

theorem complete_words (s : Screen) (changed : Bool) (r : Request) : (s.complete changed r).words = r.words := by
  change (s.inherit r).words = r.words
  unfold inherit
  simp only
  split_ifs <;> rfl

theorem resolveNamespace_words {changed : Bool} {r r' : Request} (h : resolveNamespace ask changed r = .ok r') :
    r'.words = r.words := by
  unfold resolveNamespace at h
  split_ifs at h
  · cases hn : ask.contextNamespace r with
    | error failure =>
      rw [hn] at h
      cases h
    | ok n =>
      rw [hn] at h
      cases h
      rfl
  · cases h
    rfl

theorem validate_known {r : Request} {u : Unit} (h : validate ask r = .ok u) : r.known = true := by
  unfold validate at h
  split_ifs at h with hknown
  rwa [Bool.not_eq_false] at hknown

/-- The list of a request of the workspace is one. -/
theorem listOf_ok {w : Workspace} {r : Request} (hin : r.In w) (hknown : r.known = true) :
    (listOf r).In w ∧ (listOf r).words.getLast? = some "list" := by
  unfold listOf
  split_ifs with hlast
  · exact ⟨hin.withLast (hin.two_words hknown), r.withLast_getLast "list"⟩
  · refine ⟨hin, ?_⟩
    obtain ⟨head, _, hhead⟩ := hin
    cases hl : r.words.getLast? with
    | none =>
      rw [List.getLast?_eq_none_iff] at hl
      rw [hl] at hhead
      cases hhead
    | some word =>
      rw [hl] at hlast
      simpa using hlast

/-- The first word of a structured command. -/
def CommandIn (command : String) (w : Workspace) : Prop :=
  ∀ head rest, splitCommand ((VIEW_ALIASES.lookup command).getD command).toList = .ok (head :: rest) →
    String.ofList head ∈ w.heads

theorem viewRequest_in {command : String} {w : Workspace} {r : Request} (h : s.viewRequest ask command = .ok r)
    (hw : CommandIn command w) : r.In w ∧ r.known = true := by
  unfold viewRequest at h
  obtain ⟨typed, htyped, h⟩ := Result.bind_eq_ok.mp h
  obtain ⟨parsed, hparsed, h⟩ := Result.bind_eq_ok.mp h
  obtain ⟨normal, hnormal, h⟩ := Result.bind_eq_ok.mp h
  obtain ⟨final, hfinal, h⟩ := Result.bind_eq_ok.mp h
  obtain ⟨u, hval, h⟩ := Result.bind_eq_ok.mp h
  obtain rfl := Except.ok.inj h
  obtain ⟨head, rest, rfl, hhead⟩ := tryParse_head hparsed
  refine ⟨Request.In.of_head (hw head rest htyped) ?_, validate_known hval⟩
  rw [resolveNamespace_words hfinal, complete_words, normalize_head hnormal, hhead]

/-- A command of the workspace keeps the screen in it, and is a request of it. -/
theorem view_keeps (hs : s.Ok) {command : String} {r : Request} (h : s.view ask command = .ok (t, r))
    (hw : CommandIn command s.workspace) : Keeps s t ∧ r.In s.workspace := by
  unfold view at h
  obtain ⟨r', hr, h⟩ := Result.bind_eq_ok.mp h
  obtain ⟨hin, hknown⟩ := viewRequest_in hr hw
  obtain ⟨rfl, rfl⟩ := Prod.mk.inj (Except.ok.inj h)
  refine ⟨?_, hin⟩
  by_cases hm : r'.mutates = true
  · simp only [if_pos hm]
    refine Fewer.keeps ?_ hs
    exact Fewer.of_eq ⟨rfl, rfl, rfl, rfl, rfl⟩ rfl rfl rfl rfl rfl rfl
  · simp only [if_neg hm]
    obtain ⟨hlin, hlist⟩ := listOf_ok hin hknown
    refine ⟨rfl, rfl, rfl, { hs with view := ⟨fun _ h => (nomatch h), hlin, hlist, fun h => (nomatch h)⟩ }⟩

theorem actionRequest_words (s : Screen) (row : Value) (action : String) :
    (s.actionRequest row action).words = (s.request.withLast action).words := by
  unfold actionRequest
  simp only
  split_ifs <;> rfl

theorem action_in (hs : s.Ok) {action : String} {r : Request} (h : s.action lib ask action = .ok r) :
    r.In s.workspace := by
  unfold Screen.action at h
  split_ifs at h
  obtain ⟨row, _, h⟩ := Result.bind_eq_ok.mp h
  obtain ⟨u, _, h⟩ := Result.bind_eq_ok.mp h
  obtain rfl := Except.ok.inj h
  unfold Request.In
  rw [actionRequest_words]
  exact hs.view.owner.withLast (hs.view.owner.list_two hs.view.list)

theorem purge_in (hs : s.Ok) {r : Request} (h : s.purge lib ask = .ok r) : r.In s.workspace := by
  unfold Screen.purge at h
  obtain ⟨r', hr, h⟩ := Result.bind_eq_ok.mp h
  obtain ⟨u, _, h⟩ := Result.bind_eq_ok.mp h
  obtain rfl := Except.ok.inj h
  exact (action_in hs hr : r'.In s.workspace)

/-! ### Enter -/

theorem commandIn_pods : CommandIn "pods" .kubernetes := by
  intro head rest h
  have hwords : splitCommand ((VIEW_ALIASES.lookup "pods").getD "pods").toList =
      .ok (words ["k8s", "pods", "list"]) := by decide
  rw [hwords] at h
  cases h
  decide

theorem openPods_keeps (hs : s.Ok) (hw : s.workspace = .kubernetes) :
    Keeps s (s.openPods ask).1 ∧ ∀ r, (s.openPods ask).2 = .ok (some r) → r.In s.workspace := by
  unfold openPods
  cases hview : s.view ask "pods" with
  | error failure => exact ⟨Keeps.refl hs, fun r h => nomatch h⟩
  | ok result =>
    obtain ⟨t, r⟩ := result
    obtain ⟨hk, hin⟩ := view_keeps hs hview (by rw [hw]; exact commandIn_pods)
    refine ⟨hk, ?_⟩
    rintro _ ⟨⟩
    exact hin

/-- What Enter leads to is a list, or the detail of the row, of the workspace. -/
theorem enter_keeps (hs : s.Ok) : Keeps s (s.enter lib ask).1 ∧
    ∀ r, (s.enter lib ask).2 = .ok (some r) → r.In s.workspace := by
  -- only the Kubernetes workspace shows contexts and namespaces
  have hkube : ∀ operation, s.request.operation = operation →
      (∀ head ∈ Workspace.containers.heads, ¬ head.toList <+: operation.toList) → s.workspace = .kubernetes := by
    intro operation hop hheads
    have hne := hs.view.owner.ne_of_operation hop hheads
    cases hw : s.workspace with
    | containers => exact absurd hw hne
    | kubernetes => rfl
  have hpods : ∀ t, Fewer s t → s.workspace = .kubernetes → Keeps s (t.openPods ask).1 ∧
      ∀ r, (t.openPods ask).2 = .ok (some r) → r.In s.workspace := by
    intro t ht hw
    obtain ⟨hk, hin⟩ := openPods_keeps (ht.keeps hs).ok (ht.workspace.trans hw)
    rw [ht.workspace] at hin
    exact ⟨(ht.keeps hs).trans hk, hin⟩
  unfold enter
  split
  · exact ⟨Keeps.refl hs, fun r h => nomatch h⟩
  · rename_i row _
    have hleft := invalidateResults_fewer s
    simp only
    split_ifs with h1 h2 h3 h4
    · exact hpods _ { hleft with words := rfl } (hkube _ h1 (by decide))
    · exact hpods _ { hleft with words := rfl } (hkube _ h2 (by decide))
    · refine ⟨Fewer.keeps ?_ hs, fun r h => nomatch h⟩
      exact { Fewer.refl s with words := rfl, pickerReturn := fun _ h => (nomatch h) }
    · exact ⟨(showRowDetail_fewer s row).keeps hs, fun r h => nomatch h⟩
    · refine ⟨Keeps.refl hs, fun r h => ?_⟩
      cases ha : s.action lib ask "inspect" with
      | error failure =>
        rw [ha] at h
        cases h
      | ok r' =>
        rw [ha] at h
        cases h
        exact action_in hs ha

/-! ### Targets -/

theorem applyTarget_keeps (hs : s.Ok) (target : Target) : Keeps s (s.applyTarget ask target).1 := by
  have hopen : ∀ t, Fewer s t → Keeps s (t.openList ask).1 := fun t ht =>
    (ht.keeps hs).trans (openList_keeps (ht.keeps hs).ok)
  have hleft := invalidateResults_fewer s
  unfold applyTarget
  cases target with
  | hamn name => exact hopen _ { hleft with words := rfl, picker := fun h => (nomatch h) }
  | docker name config => exact hopen _ { hleft with words := rfl, picker := fun h => (nomatch h) }
  | kubernetes name namespace_ config => exact hopen _ { hleft with words := rfl, picker := fun h => (nomatch h) }

theorem apply_keeps (hs : s.Ok) {selection : Selection} (hw : selection.workspace = s.workspace) :
    Keeps s (selection.apply ask s).1 := by
  have hopen : ∀ t, Fewer s t → Keeps s (t.openList ask).1 := fun t ht =>
    (ht.keeps hs).trans (openList_keeps (ht.keeps hs).ok)
  unfold Selection.apply
  cases selection with
  | docker context config => exact hopen _ { Fewer.refl s with words := rfl, picker := fun h => (nomatch h) }
  | kubernetes context namespace_ config =>
    simp only
    split_ifs
    · refine ⟨rfl, rfl, rfl, { hs with view := ⟨fun _ h => (nomatch h), ⟨"k8s", ?_, rfl⟩, rfl, fun h => (nomatch h)⟩ }⟩
      rw [← show Workspace.kubernetes = s.workspace from hw]
      exact List.mem_singleton_self _
    · exact hopen _ { Fewer.refl s with words := rfl, picker := fun h => (nomatch h) }

end Screen

end Hamn.Tui
