import CPreprocessor.Proofs.TokenStream.Content

/-!
Streams as plain lists. Whatever calls are made on a stream, and in whatever order, they report
what they report on the list of the tokens to be read, behind which one end comes that never
changes. Reading takes tokens off the front of the list and giving back puts them there. A buffer
that has reported its end has only the tokens left that were given back to it.
-/

namespace CPreprocessor

/-- White space that is skipped, be it only on the same line. -/
def Token.isSkipped (newline : Bool) (t : Token) : Bool :=
  t.isSpace && (newline || !t.newline)

namespace TokenStream

/-- A call on a stream. -/
inductive Call where
  | next
  | peek
  | unread (ts : List Token)
  | finished
  | takeSpace (newline : Bool)
  | takePunct (text : Text)
  | takeIdent (name : Text)
deriving DecidableEq, Repr

/-- Whether the call may ask for tokens. -/
def Call.reads : Call → Bool
  | unread _ => false
  | _ => true

/-- What a call reports. -/
inductive Reply where
  | token (t : Token)
  | stop (e : End)
  | accepted
  | finished (done : Bool)
  | space (out : Output)
  | taken (t? : Except Error (Option Token))

/-- The call reports that the stream has ended with `e`. -/
def Reply.Reports (e : End) : Reply → Prop
  | stop f => f = e
  | finished true => e = .eof
  | space ⟨_, some err⟩ | taken (.error err) => e = .fault err
  | _ => False

/-- The replies to calls made one after the other, and the state after them. -/
def replies {σ : Type} (call : Call → σ → Reply × σ) : List Call → σ → List Reply × σ
  | [], s => ([], s)
  | c :: cs, s =>
    let (a, s) := call c s
    let (as, s) := replies call cs s
    (a :: as, s)

/-- Takes the first token of a list if it satisfies `p`. -/
def takeIfOnList (e : End) (p : Token → Bool) :
    List Token → Except Error (Option Token) × List Token
  | [] => match e with
    | .eof => (.ok none, [])
    | .fault err => (.error err, [])
  | t :: ts => if p t then (.ok (some t), ts) else (.ok none, t :: ts)

/-- A call on a list of tokens behind which the end `e` comes. -/
def callOnList (e : End) : Call → List Token → Reply × List Token
  | .next, [] | .peek, [] => (.stop e, [])
  | .next, t :: ts => (.token t, ts)
  | .peek, t :: ts => (.token t, t :: ts)
  | .unread us, ts => (.accepted, us ++ ts)
  | .finished, ts => (.finished (ts.isEmpty && e == .eof), ts)
  | .takeSpace newline, ts =>
    let rest := ts.dropWhile (Token.isSkipped newline)
    let error := if rest.isEmpty then e.error? else none
    (.space ⟨ts.takeWhile (Token.isSkipped newline), error⟩, rest)
  | .takePunct text, ts =>
    let (t?, rest) := takeIfOnList e (Token.isPunct text) ts
    (.taken t?, rest)
  | .takeIdent name, ts =>
    let (t?, rest) := takeIfOnList e (Token.isIdent name) ts
    (.taken t?, rest)

variable {ρ : Type} [TokenStream ρ]

/-- A call on a stream: what it reports, and the stream after it. -/
def call : Call → ρ → Reply × ρ
  | .next, r => match next r with
    | .token t r => (.token t, r)
    | .stop e r => (.stop e, r)
  | .peek, r => match peek r with
    | .token t r => (.token t, r)
    | .stop e r => (.stop e, r)
  | .unread ts, r => (.accepted, unread ts r)
  | .finished, r =>
    let (done, r) := finished r
    (.finished done, r)
  | .takeSpace newline, r =>
    let (out, r) := takeSpace newline r
    (.space out, r)
  | .takePunct text, r =>
    let (t?, r) := takePunct text r
    (.taken t?, r)
  | .takeIdent name, r =>
    let (t?, r) := takeIdent name r
    (.taken t?, r)

theorem content_takeSpace (newline : Bool) (r : ρ) :
    (takeSpace newline r).1 = ⟨(content r).1.takeWhile (Token.isSkipped newline),
        if ((content r).1.dropWhile (Token.isSkipped newline)).isEmpty
          then (content r).2.error? else none⟩ ∧
      content (takeSpace newline r).2 =
        ((content r).1.dropWhile (Token.isSkipped newline), (content r).2) := by
  fun_induction takeSpace newline r with
  | case1 r t r' h hs out r'' hr ih =>
      rw [hr] at ih
      obtain ⟨hout, hcontent⟩ := ih
      have hs : t.isSkipped newline = true := hs
      rw [content_of_token h, List.takeWhile_cons_of_pos hs, List.dropWhile_cons_of_pos hs]
      exact ⟨congrArg (Output.prepend [t]) hout, hcontent⟩
  | case2 r t r' h hs =>
      have hs : ¬t.isSkipped newline = true := hs
      rw [content_of_token h, List.takeWhile_cons_of_neg hs, List.dropWhile_cons_of_neg hs]
      exact ⟨rfl, content_unread [t] r'⟩
  | case3 r e r' h =>
      rw [(content_of_stop h).1]
      exact ⟨rfl, (content_of_stop h).2⟩

theorem content_takeIf (p : Token → Bool) (r : ρ) :
    (takeIf p r).1 = (takeIfOnList (content r).2 p (content r).1).1 ∧
      content (takeIf p r).2 =
        ((takeIfOnList (content r).2 p (content r).1).2, (content r).2) := by
  unfold takeIf
  split
  · rename_i t r' h
    rw [content_of_token h, takeIfOnList]
    split
    · exact ⟨rfl, rfl⟩
    · exact ⟨rfl, content_unread [t] r'⟩
  · rename_i r' h
    rw [(content_of_stop h).1]
    exact ⟨rfl, (content_of_stop h).2⟩
  · rename_i err r' h
    rw [(content_of_stop h).1]
    exact ⟨rfl, (content_of_stop h).2⟩

/-- One call on a stream is that call on the list of the tokens to be read. -/
theorem call_eq_callOnList (c : Call) (r : ρ) :
    (call c r).1 = (callOnList (content r).2 c (content r).1).1 ∧
      content (call c r).2 = ((callOnList (content r).2 c (content r).1).2, (content r).2) := by
  cases c with
  | next =>
      cases h : next r with
      | token t r' =>
          rw [content_of_token h]
          simp only [call, h]
          exact ⟨rfl, rfl⟩
      | stop e r' =>
          rw [(content_of_stop h).1]
          simp only [call, h]
          exact ⟨rfl, (content_of_stop h).2⟩
  | peek =>
      cases h : next r with
      | token t r' =>
          rw [content_of_token h]
          simp only [call, peek, h]
          exact ⟨rfl, content_unread [t] r'⟩
      | stop e r' =>
          rw [(content_of_stop h).1]
          simp only [call, peek, h]
          exact ⟨rfl, (content_of_stop h).2⟩
  | unread ts => exact ⟨rfl, content_unread ts r⟩
  | finished =>
      cases h : next r with
      | token t r' =>
          rw [content_of_token h]
          simp only [call, finished, peek, h]
          exact ⟨rfl, content_unread [t] r'⟩
      | stop e r' =>
          rw [(content_of_stop h).1]
          cases e with
          | eof =>
              simp only [call, finished, peek, h]
              exact ⟨rfl, (content_of_stop h).2⟩
          | fault err =>
              simp only [call, finished, peek, h]
              exact ⟨rfl, (content_of_stop h).2⟩
  | takeSpace newline =>
      obtain ⟨hout, hcontent⟩ := content_takeSpace newline r
      exact ⟨congrArg Reply.space hout, hcontent⟩
  | takePunct text =>
      obtain ⟨ht, hcontent⟩ := content_takeIf (Token.isPunct text) r
      exact ⟨congrArg Reply.taken ht, hcontent⟩
  | takeIdent name =>
      obtain ⟨ht, hcontent⟩ := content_takeIf (Token.isIdent name) r
      exact ⟨congrArg Reply.taken ht, hcontent⟩

/-- Calls made one after the other report what they report on the list of the tokens to be read,
and leave what they leave of it. The end is the same throughout. -/
theorem content_replies (cs : List Call) (r : ρ) :
    (replies call cs r).1 = (replies (callOnList (content r).2) cs (content r).1).1 ∧
      content (replies call cs r).2 =
        ((replies (callOnList (content r).2) cs (content r).1).2, (content r).2) := by
  induction cs generalizing r with
  | nil => exact ⟨rfl, rfl⟩
  | cons c cs ih =>
      -- The first call leaves the end as it is, so the rest is made on a list with the same end.
      obtain ⟨hreply, hcontent⟩ := call_eq_callOnList c r
      obtain ⟨hreplies, hrest⟩ := ih (call c r).2
      rw [hcontent] at hreplies hrest
      refine ⟨?_, hrest⟩
      simp only [replies, hreply, hreplies]

section Keeping

variable {P : Token → Prop}

/-- Reading keeps `R`, and so does giving tokens back; the tokens have the property `P`. -/
structure Keeps (P : Token → Prop) (R : ρ → Prop) : Prop where
  token : ∀ {r s t}, R r → next r = .token t s → P t ∧ R s
  stop : ∀ {r s e}, R r → next r = .stop e s → R s
  unread : ∀ {r ts}, R r → (∀ t ∈ ts, P t) → R (unread ts r)

theorem keeps_list : Keeps P fun ts : List Token => ∀ t ∈ ts, P t where
  token {r s t} h hn := by
    cases r with
    | nil => cases hn
    | cons u us =>
        cases hn
        exact List.forall_mem_cons.1 h
  stop {r s e} h hn := by
    cases r with
    | nil =>
        cases hn
        exact h
    | cons u us => cases hn
  unread h hts := List.forall_mem_append.2 ⟨hts, h⟩

namespace Keeps

variable {R : ρ → Prop} {r s : ρ}

theorem takeSpace (hK : Keeps P R) {nl : Bool} {out : Output} (h : R r)
    (hs : takeSpace nl r = (out, s)) : (∀ t ∈ out.tokens, P t) ∧ R s := by
  fun_induction TokenStream.takeSpace nl r generalizing out with
  | case1 r t r₁ hn ht out₁ r₂ hr ih =>
      cases hs
      obtain ⟨ht, h₁⟩ := hK.token h hn
      obtain ⟨hout, hR⟩ := ih h₁ hr
      exact ⟨List.forall_mem_cons.2 ⟨ht, hout⟩, hR⟩
  | case2 r t r₁ hn ht =>
      cases hs
      obtain ⟨ht, h₁⟩ := hK.token h hn
      exact ⟨by simp, hK.unread h₁ (List.forall_mem_singleton.2 ht)⟩
  | case3 r e r₁ hn =>
      cases hs
      exact ⟨by simp, hK.stop h hn⟩

theorem takeIf (hK : Keeps P R) {p : Token → Bool} {x : Except Error (Option Token)} (h : R r)
    (hs : takeIf p r = (x, s)) : R s := by
  unfold TokenStream.takeIf at hs
  split at hs
  · rename_i t r₁ hn
    obtain ⟨ht, h₁⟩ := hK.token h hn
    split at hs
    · cases hs
      exact h₁
    · cases hs
      exact hK.unread h₁ (List.forall_mem_singleton.2 ht)
  · rename_i hn
    cases hs
    exact hK.stop h hn
  · rename_i hn
    cases hs
    exact hK.stop h hn

/-- What reading keeps, every call keeps that gives back only tokens with the property. -/
theorem call (hK : Keeps P R) (c : Call) (hc : ∀ ts, c = .unread ts → ∀ t ∈ ts, P t)
    (h : R r) :
    R (call c r).2 := by
  have hpeek : R (peek r).state := by
    unfold peek
    split
    · rename_i t r₁ hn
      obtain ⟨ht, h₁⟩ := hK.token h hn
      exact hK.unread h₁ (List.forall_mem_singleton.2 ht)
    · rename_i e r₁ hn
      exact hK.stop h hn
  cases c with
  | next =>
      cases hn : next r with
      | token t r₁ =>
          simp only [TokenStream.call, hn]
          exact (hK.token h hn).2
      | stop e r₁ =>
          simp only [TokenStream.call, hn]
          exact hK.stop h hn
  | peek =>
      simp only [TokenStream.call]
      split <;> rename_i hn <;> rwa [hn] at hpeek
  | unread ts => exact hK.unread h (hc ts rfl)
  | finished =>
      simp only [TokenStream.call, finished]
      split <;> rename_i hn <;> rwa [hn] at hpeek
  | takeSpace newline => exact (hK.takeSpace h rfl).2
  | takePunct text | takeIdent name => exact hK.takeIf h rfl

end Keeps
end Keeping

/-- Skipping white space fails only where the stream does. -/
theorem exists_next_of_takeSpace {newline : Bool} {r : ρ} {err : Error}
    (h : (takeSpace newline r).1.error = some err) :
    ∃ r', next r' = .stop (.fault err) (takeSpace newline r).2 := by
  fun_induction takeSpace newline r with
  | case1 r t r₁ hn _ out r₂ hr ih =>
      rw [hr] at ih
      exact ih h
  | case2 r t r₁ hn _ => cases h
  | case3 r e r₁ hn =>
      cases e with
      | eof => cases h
      | fault f =>
          cases h
          exact ⟨r, hn⟩

theorem next_of_takeIf_eq_error {p : Token → Bool} {r s : ρ} {err : Error}
    (h : takeIf p r = (.error err, s)) : next r = .stop (.fault err) s := by
  unfold takeIf at h
  split at h
  · split at h <;> cases h
  · cases h
  · rename_i hn
    cases h
    exact hn

/-- A call that reports the end has met it when it last asked for a token. -/
theorem exists_next_of_reports {c : Call} {r : ρ} {e : End} (h : (call c r).1.Reports e) :
    ∃ r', next r' = .stop e (call c r).2 := by
  have hpeek {s : ρ} (hp : peek r = .stop e s) : next r = .stop e s := by
    unfold peek at hp
    split at hp
    · cases hp
    · rename_i hn
      cases hp
      exact hn
  have htaken {p : Token → Bool} (h : (Reply.taken (takeIf p r).1).Reports e) :
      ∃ r', next r' = .stop e (takeIf p r).2 := by
    rcases hr : takeIf p r with ⟨err | t?, s⟩
    · rw [hr] at h
      cases h
      exact ⟨r, next_of_takeIf_eq_error hr⟩
    · rw [hr] at h
      cases h
  cases c with
  | next =>
      cases hn : next r with
      | token t s =>
          simp only [call, hn] at h
          cases h
      | stop f s =>
          simp only [call, hn] at h ⊢
          cases h
          exact ⟨r, hn⟩
  | peek =>
      cases hp : peek r with
      | token t s =>
          simp only [call, hp] at h
          cases h
      | stop f s =>
          simp only [call, hp] at h ⊢
          cases h
          exact ⟨r, hpeek hp⟩
  | unread ts => cases h
  | finished =>
      simp only [call, finished] at h ⊢
      split at h
      · rename_i s hp
        cases h
        exact ⟨r, hpeek hp⟩
      · cases h
      · cases h
  | takeSpace newline =>
      have hspace (err : Error) := @exists_next_of_takeSpace ρ _ newline r err
      simp only [call] at h ⊢
      rcases hr : takeSpace newline r with ⟨⟨ws, _ | err⟩, s⟩
      · rw [hr] at h
        cases h
      · rw [hr] at h hspace
        cases h
        exact hspace err rfl
  | takePunct text => exact htaken h
  | takeIdent name => exact htaken h

end TokenStream

namespace Buffered

open TokenStream (Call Reply call callOnList replies)

variable {σ : Type} [Source σ] {r s : Buffered σ} {e : End}

/-- A buffer remembers the end it has met. -/
theorem ended_of_stop (h : TokenStream.next r = .stop e s) : s.ended = some e := by
  obtain ⟨source, returned, ended⟩ := r
  cases returned with
  | cons t ts => cases h
  | nil =>
      cases ended with
      | some f =>
          cases h
          rfl
      | none =>
          simp only [TokenStream.next, next] at h
          split at h
          · cases h
          · cases h
            rfl

theorem keeps_ended (e : End) :
    TokenStream.Keeps (fun _ => True) fun r : Buffered σ => r.ended = some e where
  token {r s t} hr hn := by
    obtain ⟨source, returned, ended⟩ := r
    cases hr
    cases returned with
    | nil => cases hn
    | cons u us =>
        cases hn
        exact ⟨trivial, rfl⟩
  stop {r s f} hr hn := by
    obtain ⟨source, returned, ended⟩ := r
    cases hr
    cases returned with
    | nil =>
        cases hn
        rfl
    | cons u us => cases hn
  unread hr _ := hr

theorem ended_replies (cs : List Call) (h : r.ended = some e) :
    (replies call cs r).2.ended = some e := by
  induction cs generalizing r with
  | nil => exact h
  | cons c cs ih => exact ih ((keeps_ended e).call c (fun _ _ _ _ => trivial) h)

/-- Once the end has been reported, it is remembered. -/
theorem ended_of_reports (cs : List Call) (h : ∃ a ∈ (replies call cs r).1, a.Reports e) :
    (replies call cs r).2.ended = some e := by
  induction cs generalizing r with
  | nil =>
      obtain ⟨a, ha, -⟩ := h
      cases ha
  | cons c cs ih =>
      obtain ⟨a, ha, hreports⟩ := h
      rcases List.mem_cons.1 ha with rfl | ha
      · obtain ⟨r', hn⟩ := TokenStream.exists_next_of_reports hreports
        exact ended_replies cs (ended_of_stop hn)
      · exact ih ⟨a, ha, hreports⟩

theorem next_of_ended (hr : r.returned = []) (he : r.ended = some e) :
    TokenStream.next r = .stop e r := by
  obtain ⟨source, returned, ended⟩ := r
  cases hr
  cases he
  rfl

/-- At a remembered end every call that reads reports it again, and the source is not asked. -/
theorem call_of_ended (hr : r.returned = []) (he : r.ended = some e) {c : Call}
    (hc : c.reads = true) : call c r = ((callOnList e c []).1, r) := by
  have hn := next_of_ended hr he
  cases c with
  | unread ts => cases hc
  | next => simp only [call, hn, callOnList]
  | peek => simp only [call, TokenStream.peek, hn, callOnList]
  | finished => cases e <;> simp only [call, TokenStream.finished, TokenStream.peek, hn] <;> rfl
  | takeSpace newline =>
      have hs : TokenStream.takeSpace newline r = (⟨[], e.error?⟩, r) := by
        rw [TokenStream.takeSpace]
        split <;> simp_all
      simp only [call, hs]
      rfl
  | takePunct text | takeIdent name =>
      cases e <;>
        simp only [call, TokenStream.takePunct, TokenStream.takeIdent, TokenStream.takeIf, hn] <;>
        rfl

/-- Calls on a buffer, made one after the other, report what they report on a list behind which
one end comes, the list of the tokens given back and of those the source has left, and they leave
what they leave of that list. Once the end has been reported, only tokens are left that were given
back; if there are none, every call that reads reports the end again and changes nothing. -/
theorem replies_eq_callOnList (r : Buffered σ) (cs : List Call) :
    ∃ answers ts r', replies (callOnList r.beyond.2) cs (r.returned ++ r.beyond.1) =
      (answers, ts) ∧
      replies call cs r = (answers, r') ∧ TokenStream.content r' = (ts, r.beyond.2) ∧
      ∀ e, (∃ a ∈ answers, a.Reports e) → e = r.beyond.2 ∧ r'.returned = ts ∧
        (ts = [] → ∀ c : Call, c.reads = true → call c r' = ((callOnList e c []).1, r')) := by
  obtain ⟨hanswers, hcontent⟩ := TokenStream.content_replies cs r
  refine ⟨_, _, _, rfl, Prod.ext hanswers rfl, hcontent, fun e hreports => ?_⟩
  have hended : (replies call cs r).2.ended = some e := by
    refine ended_of_reports cs ?_
    rwa [hanswers]
  have hleft : TokenStream.content (replies call cs r).2 = ((replies call cs r).2.returned, e) := by
    simp only [TokenStream.content, content, beyond, hended, List.append_nil]
  obtain ⟨hreturned, hend⟩ := Prod.mk.inj (hleft.symm.trans hcontent)
  refine ⟨hend, hreturned, fun hnil c hc => ?_⟩
  exact call_of_ended (hreturned.trans hnil) hended hc

namespace Sample

/-- A source that goes on behind the ends it reports. -/
structure Resuming where
  parts : List (Except End Token)

def Resuming.pull : Resuming → Pull Resuming
  | ⟨[]⟩ => .stop .eof ⟨[]⟩
  | ⟨.ok t :: parts⟩ => .token t ⟨parts⟩
  | ⟨.error e :: parts⟩ => .stop e ⟨parts⟩

instance : Source Resuming where
  pull := Resuming.pull
  wf := wellFounded_pull Resuming.pull (fun s => s.parts.length) fun s t s' h => by
    obtain ⟨_ | ⟨_ | u, parts⟩⟩ := s <;> cases h
    exact Nat.lt_succ_self parts.length

def name : Token :=
  { kind := .identifier, text := ascii "f", length := 1 }

def gap : Token :=
  { kind := .whitespace, text := [Byte.space], length := 1 }

def opening : Token :=
  { kind := .punctuator, text := ascii "(", length := 1 }

def failure : Error :=
  { fault := .unterminatedComment, pos := ⟨3, 1, 4⟩ }

/-- A name, white space and a parenthesis in front of an error, and a name behind it. -/
def failing : Resuming :=
  ⟨[.ok name, .ok gap, .ok opening, .error (.fault failure), .ok name]⟩

/-- White space and a parenthesis are taken and given back in turn, the white space last, and one
more token is given back when the error has been reported. -/
def calls : List Call :=
  [.next, .takeSpace true, .takePunct (ascii "("), .unread [opening], .takeIdent (ascii "f"),
    .unread [gap], .peek, .takeSpace false, .next, .finished, .next, .unread [name], .next]

def answers : List Reply :=
  [.token name, .space ⟨[gap], none⟩, .taken (.ok (some opening)), .accepted, .taken (.ok none),
    .accepted, .token gap, .space ⟨[gap], none⟩, .token opening, .finished false,
    .stop (.fault failure), .accepted, .token name]

end Sample

open Sample in
/-- The error is reported again, although the source would go on. -/
theorem replies_eq_callOnList_failing :
    ∃ r', replies call calls (ofSource failing) = (answers, r') ∧
      call .next r' = (.stop (.fault failure), r') ∧
      call (.takeSpace true) r' = (.space ⟨[], some failure⟩, r') := by
  have hbeyond : (ofSource failing).beyond = ([name, gap, opening], .fault failure) :=
    Source.content_of_runWithin (n := 9) (by decide +kernel)
  obtain ⟨as, ts, r', hplain, hcalls, -, hend⟩ := replies_eq_callOnList (ofSource failing) calls
  rw [hbeyond] at hplain
  have hlist : replies (callOnList (.fault failure)) calls [name, gap, opening] = (answers, []) :=
    rfl
  obtain ⟨rfl, rfl⟩ := Prod.mk.inj (hlist.symm.trans hplain)
  have hreports : ∃ a ∈ answers, a.Reports (.fault failure) :=
    ⟨.stop (.fault failure), by simp [answers], rfl⟩
  obtain ⟨-, -, hread⟩ := hend (.fault failure) hreports
  exact ⟨r', hcalls, hread rfl .next rfl, hread rfl (.takeSpace true) rfl⟩

end Buffered
end CPreprocessor
