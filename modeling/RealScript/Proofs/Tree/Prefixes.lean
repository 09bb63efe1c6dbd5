import RealScript.Proofs.Token.Spelling
import RealScript.Proofs.Tree.Unfolding

/-! # Prefixes of programs

What a parser does with tokens in front of the end of the input tells what it does with the same
tokens in front of others: it stops before the end and does not look any further, or it fails for
good, or it fails at the end and some tokens can be filled in there.
-/

namespace RealScript.Parse

variable {cause : Token → Cause}

structure Reads (s : Stream) (ts : List Token) : Prop where
  tokens : s.tokens = ts
  closed : s.Closed

variable {α β γ : Type}

def Gives (x : Parse α) (s : Stream) (a : α) (us : List Token) : Prop :=
  ∃ t, x s = .ok (a, t) ∧ Reads t us ∧ t.failure = s.failure

def Heads (F : TokenKind → Prop) (ts : List Token) : Prop := ∃ u us, ts = u :: us ∧ F u.kind

def Inner (ts : List Token) : Prop := ∀ t ∈ ts, t.kind ≠ .endOfInput

section Streams

variable {s t : Stream} {x y : Parse α} {f : α → Parse β} {a : α} {b : β} {u : Token}
  {ts us vs : List Token} {F G : TokenKind → Prop} {d : Diagnostic}

theorem Heads.ne_nil (h : Heads F ts) : ts ≠ [] := by
  obtain ⟨u, us, rfl, -⟩ := h
  exact List.cons_ne_nil _ _

theorem Heads.mono (h : Heads F ts) (hF : ∀ k, F k → G k) : Heads G ts := by
  obtain ⟨u, us, rfl, hu⟩ := h
  exact ⟨u, us, rfl, hF _ hu⟩

theorem Inner.tail (h : Inner (u :: us)) : Inner us := fun t ht => h t (List.mem_cons_of_mem u ht)

theorem Inner.head (h : Inner (u :: us)) : u.kind ≠ .endOfInput := h u List.mem_cons_self

theorem Reads.tok (h : Reads s (u :: us)) : s.tok = u := (List.cons.inj h.tokens).1

theorem not_reads_nil : ¬ Reads s [] := fun h => List.cons_ne_nil _ _ h.tokens

theorem Gives.of_run (hx : x s = .ok (a, t)) (hfail : t.failure = s.failure)
    (hf : Gives (f a) t b vs) : Gives (x >>= f) s b vs := by
  obtain ⟨v, hv, hvs, hfail'⟩ := hf
  refine ⟨v, ?_, hvs, hfail'.trans hfail⟩
  rw [bind_run, hx]
  exact hv

theorem Gives.bind (hx : Gives x s a us)
    (hf : ∀ t, Reads t us → t.failure = s.failure → Gives (f a) t b vs) :
    Gives (x >>= f) s b vs := by
  obtain ⟨t, ht, hus, hfail⟩ := hx
  exact .of_run ht hfail (hf t hus hfail)

theorem Gives.pure (h : Reads s us) : Gives (pure a) s a us := ⟨s, rfl, h, rfl⟩

theorem Gives.current {g : Token → Parse β} (h : Reads s (u :: us)) (hg : Gives (g u) s b vs) :
    Gives (current >>= g) s b vs := by
  rw [← h.tok] at hg
  exact hg

theorem Gives.advance (h : Reads s (u :: us)) (hus : us ≠ []) : Gives advance s () us := by
  obtain ⟨tok, rest, failure⟩ := s
  obtain ⟨rfl, rfl⟩ := List.cons.inj h.tokens
  cases rest with
  | nil => exact absurd rfl hus
  | cons v us => exact ⟨_, rfl, ⟨rfl, fun hf => by simpa [Stream.tokens] using h.closed hf⟩, rfl⟩

theorem advance_last (h : Reads s [u]) (hd : s.failure = some d) : advance s = .error d := by
  obtain ⟨tok, rest, failure⟩ := s
  obtain ⟨rfl, rfl⟩ := List.cons.inj h.tokens
  cases hd
  rfl

theorem bind_error (h : x s = .error d) : (x >>= f) s = .error d := by
  rw [bind_run, h]

theorem Gives.bind_error (hx : Gives x s a us)
    (hf : ∀ t, Reads t us → t.failure = s.failure → f a t = .error d) :
    (x >>= f) s = .error d := by
  obtain ⟨t, ht, hus, hfail⟩ := hx
  rw [bind_run, ht]
  exact hf t hus hfail

end Streams

/-- The parser takes any tokens that stand for these, if one of the kinds follows. -/
def Fills (F : TokenKind → Prop) (fill : List Lexeme) (x : Parse α) : Prop :=
  ∀ s cs tail, cs.map Token.lexeme = fill → Heads F tail → Reads s (cs ++ tail) →
    ∃ a, Gives x s a tail

/-- What starts with these tokens, or with one of the kinds `F` if there are none, starts with one
of the kinds `G`. -/
def Enters (G : TokenKind → Prop) (fill : List Lexeme) (F : TokenKind → Prop) : Prop :=
  match fill with
  | [] => ∀ k, F k → G k
  | l :: _ => G l.kind

/-- What a parser does with tokens in front of the end of the input, if that is `e`, and in front of
other tokens. It takes at least `k` tokens. -/
inductive Tracks (F : TokenKind → Prop) (e : Token) (k : Nat) (x : Parse α) (ts : List Token) : Prop
  /-- It does not look behind the tokens, unless it takes all of them. -/
  | accepts (a : α) (rest : List Token) : Inner rest → rest.length + k ≤ ts.length →
    (∀ s tail, Reads s (ts ++ tail) → (rest = [] → Heads F tail ∨ Heads (· = .endOfInput) tail) →
      Gives x s a (rest ++ tail)) →
    (rest = [] → ∀ s d, Reads s ts → s.failure = some d → x s = .error d) → Tracks F e k x ts
  /-- It fails whatever comes behind the tokens. -/
  | rejects (d : Diagnostic) : ts ≠ [] → d.incomplete = false →
    (∀ s tail, Reads s (ts ++ tail) → x s = .error d) → Tracks F e k x ts
  /-- It fails at the end, and some tokens can be filled in there. -/
  | wants (d : Diagnostic) (fill : List Lexeme) : d.incomplete = true →
    (∀ s, Reads s (ts ++ [e]) → x s = .error d) →
    (∀ s d, Reads s ts → s.failure = some d → x s = .error d) → (∀ l ∈ fill, l.Spelled) →
    (∀ s cs tail, cs.map Token.lexeme = fill → Heads F tail → Reads s (ts ++ (cs ++ tail)) →
      ∃ a, Gives x s a tail) → Tracks F e k x ts

/-- The tracks of a parser on fewer than `n` tokens, and what it can be given at the end. -/
structure Completes (n : Nat) (F : TokenKind → Prop) (e : Token) (k : Nat) (fill : List Lexeme)
    (x : Parse α) : Prop where
  spelled : ∀ l ∈ fill, l.Spelled
  proper : k = 0 → fill = []
  fills : Fills F fill x
  tracks : ∀ ts, Inner ts → ts.length < n → Tracks F e k x ts

def Same (x y : Parse α) : Prop := ∀ s : Stream, s.Closed → x s = y s

def Starves (e : Token) (x : Parse α) : Prop :=
  ∃ d : Diagnostic, d.incomplete = true ∧ ∀ s, Reads s [e] → x s = .error d

section Rules

variable {F G : TokenKind → Prop} {e t : Token} {j k k' m n : Nat} {x y : Parse α} {f : α → Parse β}
  {ts : List Token} {fill v w : List Lexeme} {a : α}

theorem Enters.heads (h : Enters G fill F) {cs tail : List Token}
    (hcs : cs.map Token.lexeme = fill) (ht : Heads F tail) : Heads G (cs ++ tail) := by
  cases cs with
  | nil =>
    subst hcs
    exact ht.mono h
  | cons c cs =>
    subst hcs
    exact ⟨c, cs ++ tail, rfl, h⟩

theorem Gives.congr {s : Stream} {us : List Token} (h : Gives y s a us) (hxy : x s = y s) :
    Gives x s a us := by
  obtain ⟨t, ht, hus⟩ := h
  exact ⟨t, hxy.trans ht, hus⟩

namespace Fills

theorem congr (h : Fills F fill y) (hxy : Same x y) : Fills F fill x := by
  intro s cs tail hcs htail hs
  obtain ⟨a, ha⟩ := h s cs tail hcs htail hs
  exact ⟨a, ha.congr (hxy s hs.closed)⟩

theorem bind (hx : Fills G w x) (hf : ∀ a, Fills F v (f a)) (he : Enters G v F) :
    Fills F (w ++ v) (x >>= f) := by
  intro s cs tail hcs htail hs
  obtain ⟨cs, cs', rfl, hcs, hcs'⟩ := List.map_eq_append_iff.mp hcs
  rw [List.append_assoc] at hs
  obtain ⟨a, t, hxs, ht, hfail⟩ := hx s cs (cs' ++ tail) hcs (he.heads hcs' htail) hs
  obtain ⟨b, hb⟩ := hf a t cs' tail hcs' htail ht
  exact ⟨b, .of_run hxs hfail hb⟩

theorem current {g : Token → Parse β} {l : Lexeme}
    (h : ∀ t, t.lexeme = l → Fills F (l :: fill) (g t)) :
    Fills F (l :: fill) (Parse.current >>= g) := by
  intro s cs tail hcs htail hs
  obtain ⟨c, cs, rfl, hc, -⟩ := List.map_eq_cons_iff.mp hcs
  obtain ⟨b, hb⟩ := h c hc s (c :: cs) tail hcs htail hs
  exact ⟨b, .current hs hb⟩

theorem ahead {g : Token → Parse β} (h : ∀ t, F t.kind → Fills F [] (g t)) :
    Fills F [] (Parse.current >>= g) := by
  intro s cs tail hcs htail hs
  obtain rfl := List.map_eq_nil_iff.mp hcs
  obtain ⟨u, us, rfl, hu⟩ := htail
  obtain ⟨b, hb⟩ := h u hu s [] (u :: us) hcs ⟨u, us, rfl, hu⟩ hs
  exact ⟨b, .current hs hb⟩

theorem advance {g : Unit → Parse β} {l : Lexeme} (h : Fills F fill (g ())) :
    Fills F (l :: fill) (Parse.advance >>= g) := by
  intro s cs tail hcs htail hs
  obtain ⟨c, cs, rfl, -, hcs⟩ := List.map_eq_cons_iff.mp hcs
  obtain ⟨t, ht, hread, hfail⟩ := Gives.advance hs (by simp [htail.ne_nil])
  obtain ⟨b, hb⟩ := h t cs tail hcs htail hread
  exact ⟨b, .of_run ht hfail hb⟩

theorem pure : Fills F [] (pure a) := by
  intro s cs tail hcs htail hs
  obtain rfl := List.map_eq_nil_iff.mp hcs
  exact ⟨a, .pure hs⟩

end Fills

namespace Starves

theorem congr (h : Starves e y) (hxy : Same x y) : Starves e x := by
  obtain ⟨d, hd, h⟩ := h
  exact ⟨d, hd, fun s hs => (hxy s hs.closed).trans (h s hs)⟩

theorem bind (h : Starves e x) : Starves e (x >>= f) := by
  obtain ⟨d, hd, h⟩ := h
  exact ⟨d, hd, fun s hs => bind_error (h s hs)⟩

theorem current {g : Token → Parse β} (h : Starves e (g e)) : Starves e (Parse.current >>= g) := by
  obtain ⟨d, hd, h⟩ := h
  refine ⟨d, hd, fun s hs => ?_⟩
  have h := h s hs
  rw [← hs.tok] at h
  exact h

theorem reject (h : (cause e).atEnd = true) : Starves e (Parse.reject cause : Parse α) := by
  refine ⟨⟨e.pos, cause e⟩, h, fun s hs => ?_⟩
  rw [← hs.tok]
  rfl

end Starves

namespace Tracks

theorem congr_on (h : Tracks F e k y ts) (hxy : ∀ s tail, Reads s (ts ++ tail) → x s = y s) :
    Tracks F e k x ts := by
  have hxy' (s : Stream) (hs : Reads s ts) : x s = y s := hxy s [] (by rwa [List.append_nil])
  cases h with
  | accepts a rest hrest hk hgives hcut =>
    exact accepts a rest hrest hk
      (fun s tail hs htail => (hgives s tail hs htail).congr (hxy s tail hs))
      (fun hnil s d hs hd => (hxy' s hs).trans (hcut hnil s d hs hd))
  | rejects d hts hd herror =>
    exact rejects d hts hd fun s tail hs => (hxy s tail hs).trans (herror s tail hs)
  | wants d fill hd herror hcut hspelled hfill =>
    refine wants d fill hd (fun s hs => (hxy s [e] hs).trans (herror s hs))
      (fun s d hs hd => (hxy' s hs).trans (hcut s d hs hd)) hspelled ?_
    intro s cs tail hcs htail hs
    obtain ⟨a, ha⟩ := hfill s cs tail hcs htail hs
    exact ⟨a, ha.congr (hxy s _ hs)⟩

theorem congr (h : Tracks F e k y ts) (hxy : Same x y) : Tracks F e k x ts :=
  h.congr_on fun s _ hs => hxy s hs.closed

theorem mono (h : Tracks G e k x ts) (hF : ∀ kind, F kind → G kind) (hk : k' ≤ k) :
    Tracks F e k' x ts := by
  cases h with
  | accepts a rest hrest hlen hgives hcut =>
    refine accepts a rest hrest (by omega) (fun s tail hs htail => ?_) hcut
    exact hgives s tail hs fun hnil => (htail hnil).imp (·.mono hF) id
  | rejects d hts hd herror => exact rejects d hts hd herror
  | wants d fill hd herror hcut hspelled hfill =>
    exact wants d fill hd herror hcut hspelled fun s cs tail hcs htail =>
      hfill s cs tail hcs (htail.mono hF)

theorem at_end (hspelled : ∀ l ∈ fill, l.Spelled) (h : Fills F fill x) (hx : Starves e x) :
    Tracks F e k x [] := by
  obtain ⟨d, hd, herror⟩ := hx
  exact wants d fill hd herror (fun _ _ hs => absurd hs not_reads_nil) hspelled h

theorem idle (h : ∀ s u us, F u.kind ∨ u.kind = .endOfInput → Reads s (u :: us) →
    Gives x s a (u :: us)) : Tracks F e 0 x [] := by
  refine accepts a [] nofun (Nat.le_refl _) ?_ fun _ _ _ hs => absurd hs not_reads_nil
  intro s tail hs htail
  rcases htail rfl with ⟨u, us, rfl, hu⟩ | ⟨u, us, rfl, hu⟩
  · exact h s u us (.inl hu) hs
  · exact h s u us (.inr hu) hs

theorem pure (hts : Inner ts) : Tracks F e 0 (pure a) ts :=
  accepts a ts hts (Nat.le_refl _) (fun _ _ hs _ => .pure hs)
    fun hnil _ _ hs => absurd (hnil ▸ hs) not_reads_nil

theorem throw {d : Diagnostic} (hd : d.incomplete = false)
    (h : ∀ s tail, Reads s (t :: ts ++ tail) →
    x s = .error d) : Tracks F e k x (t :: ts) :=
  rejects d (List.cons_ne_nil _ _) hd h

theorem reject (hd : (cause t).atEnd = false) :
    Tracks F e k (reject cause : Parse α) (t :: ts) := by
  refine rejects ⟨t.pos, cause t⟩ (List.cons_ne_nil _ _) hd fun s tail hs => ?_
  rw [← Reads.tok hs]
  rfl

theorem reject_bind (hd : (cause t).atEnd = false) :
    Tracks F e k (Parse.reject cause >>= f) (t :: ts) := by
  refine rejects ⟨t.pos, cause t⟩ (List.cons_ne_nil _ _) hd fun s tail hs => ?_
  rw [← Reads.tok hs]
  rfl

theorem current {g : Token → Parse β} (h : Tracks F e k (g t) (t :: ts)) :
    Tracks F e k (Parse.current >>= g) (t :: ts) := by
  cases h with
  | accepts a rest hrest hk hgives hcut =>
    refine accepts a rest hrest hk (fun s tail hs htail => .current hs (hgives s tail hs htail)) ?_
    intro hnil s d hs hd
    have h := hcut hnil s d hs hd
    rw [← hs.tok] at h
    exact h
  | rejects d hts hd herror =>
    refine rejects d hts hd fun s tail hs => ?_
    have h := herror s tail hs
    rw [← Reads.tok hs] at h
    exact h
  | wants d fill hd herror hcut hspelled hfill =>
    refine wants d fill hd (fun s hs => ?_) (fun s d hs hd => ?_) hspelled ?_
    · have h := herror s hs
      rw [← Reads.tok hs] at h
      exact h
    · have h := hcut s d hs hd
      rw [← hs.tok] at h
      exact h
    · intro s cs tail hcs htail hs
      obtain ⟨a, ha⟩ := hfill s cs tail hcs htail hs
      exact ⟨a, .current hs ha⟩

theorem advance {g : Unit → Parse β} (h : Tracks F e k (g ()) ts) :
    Tracks F e (k + 1) (Parse.advance >>= g) (t :: ts) := by
  cases h with
  | accepts a rest hrest hk hgives hcut =>
    have hlen : (t :: ts).length = ts.length + 1 := rfl
    refine accepts a rest hrest (by omega) ?_ ?_
    · intro s tail hs htail
      have hne : ts ++ tail ≠ [] := by
        intro hnil
        obtain ⟨rfl, rfl⟩ := List.append_eq_nil_iff.mp hnil
        have hnil : rest = [] := List.length_eq_zero_iff.mp
          (by simpa using Nat.le_of_add_right_le hk)
        rcases htail hnil with h | h <;> exact h.ne_nil rfl
      exact (Gives.advance hs hne).bind fun u hu _ => hgives u tail hu htail
    · intro hnil s d hs hd
      cases ts with
      | nil => exact bind_error (advance_last hs hd)
      | cons u us =>
        exact (Gives.advance hs (List.cons_ne_nil _ _)).bind_error fun v hv hfail =>
          hcut hnil v d hv (hfail.trans hd)
  | rejects d hts hd herror =>
    refine rejects d (List.cons_ne_nil _ _) hd fun s tail hs => ?_
    exact (Gives.advance hs (by simp [hts])).bind_error fun u hu _ => herror u tail hu
  | wants d fill hd herror hcut hspelled hfill =>
    refine wants d fill hd (fun s hs => ?_) (fun s d hs hd => ?_) hspelled ?_
    · exact (Gives.advance hs (by simp)).bind_error fun u hu _ => herror u hu
    · cases ts with
      | nil => exact bind_error (advance_last hs hd)
      | cons u us =>
        exact (Gives.advance hs (List.cons_ne_nil _ _)).bind_error fun v hv hfail =>
          hcut v d hv (hfail.trans hd)
    · intro s cs tail hcs htail hs
      obtain ⟨v, hv, hvs, hfail⟩ := Gives.advance hs (by simp [htail.ne_nil])
      obtain ⟨a, ha⟩ := hfill v cs tail hcs htail hvs
      exact ⟨a, .of_run hv hfail ha⟩

theorem bind (he : e.kind = .endOfInput) (hx : Tracks G e k x ts) (hlen : ts.length < n)
    (hf : ∀ a, Completes (n - k) F e k' fill (f a)) (henters : Enters G fill F)
    (hspelled : ∀ l ∈ fill, l.Spelled) : Tracks F e (k + k') (x >>= f) ts := by
  cases hx with
  | rejects d hts hd herror => exact rejects d hts hd fun s tail hs => bind_error (herror s tail hs)
  | wants d fill₁ hd herror hcut hspelled₁ hfill =>
    refine wants d (fill₁ ++ fill) hd (fun s hs => bind_error (herror s hs))
      (fun s d hs hd => bind_error (hcut s d hs hd)) ?_ ?_
    · intro l hl
      exact (List.mem_append.mp hl).elim (hspelled₁ l) (hspelled l)
    · intro s cs tail hcs htail hs
      obtain ⟨cs, cs', rfl, hcs, hcs'⟩ := List.map_eq_append_iff.mp hcs
      rw [List.append_assoc] at hs
      obtain ⟨a, t, hxs, ht, hfail⟩ := hfill s cs (cs' ++ tail) hcs (henters.heads hcs' htail) hs
      obtain ⟨b, hb⟩ := (hf a).fills t cs' tail hcs' htail ht
      exact ⟨b, Gives.of_run hxs hfail hb⟩
  | accepts a rest hrest hk hgives hcut =>
    have hend : Heads (· = .endOfInput) [e] := ⟨e, [], rfl, he⟩
    by_cases hnil : rest = []
    · subst hnil
      have hcut' : ∀ s d, Reads s ts → s.failure = some d → (x >>= f) s = .error d :=
        fun s d hs hd => bind_error (hcut rfl s d hs hd)
      cases (hf a).tracks [] hrest (by simp at hk ⊢; omega) with
      | rejects d hts _ _ => exact absurd rfl hts
      | wants d _ hd herror _ _ _ =>
        refine wants d fill hd (fun s hs => ?_) hcut' hspelled ?_
        · exact (hgives s [e] hs fun _ => .inr hend).bind_error fun t ht _ => herror t ht
        · intro s cs tail hcs htail hs
          obtain ⟨t, hxs, ht, hfail⟩ := hgives s (cs ++ tail) hs fun _ =>
            .inl (henters.heads hcs htail)
          obtain ⟨b, hb⟩ := (hf a).fills t cs tail hcs htail ht
          exact ⟨b, Gives.of_run hxs hfail hb⟩
      | accepts b rest' hrest' hk' hgives' _ =>
        obtain ⟨rfl, rfl⟩ : rest' = [] ∧ k' = 0 := by
          simp only [List.length_nil, Nat.le_zero, Nat.add_eq_zero_iff,
            List.length_eq_zero_iff] at hk'
          exact hk'
        obtain rfl := (hf a).proper rfl
        refine accepts b [] hrest' (by simpa using hk) (fun s tail hs htail => ?_) fun _ => hcut'
        exact (hgives s tail hs fun _ => (htail rfl).imp (·.mono henters) id).bind
          fun t ht _ => hgives' t tail ht htail
    · cases (hf a).tracks rest hrest (by omega) with
      | rejects d hts hd herror =>
        refine rejects d ?_ hd fun s tail hs => ?_
        · rintro rfl
          exact hnil (List.length_eq_zero_iff.mp (Nat.le_zero.mp (Nat.le_of_add_right_le hk)))
        · exact (hgives s tail hs (absurd · hnil)).bind_error fun t ht _ => herror t tail ht
      | wants d fill' hd herror hcut' hspelled' hfill =>
        refine wants d fill' hd (fun s hs => ?_) (fun s d hs hd => ?_) hspelled' ?_
        · exact (hgives s [e] hs (absurd · hnil)).bind_error fun t ht _ => herror t ht
        · have hs' : Reads s (ts ++ []) := by rwa [List.append_nil]
          refine (hgives s [] hs' (absurd · hnil)).bind_error fun t ht hfail => ?_
          rw [List.append_nil] at ht
          exact hcut' t d ht (hfail.trans hd)
        · intro s cs tail hcs htail hs
          obtain ⟨t, hxs, ht, hfail⟩ := hgives s (cs ++ tail) hs (absurd · hnil)
          obtain ⟨b, hb⟩ := hfill t cs tail hcs htail ht
          exact ⟨b, Gives.of_run hxs hfail hb⟩
      | accepts b rest' hrest' hk' hgives' hcut' =>
        refine accepts b rest' hrest' (by omega) (fun s tail hs htail => ?_) ?_
        · exact (hgives s tail hs (absurd · hnil)).bind fun t ht _ => hgives' t tail ht htail
        · intro hnil' s d hs hd
          have hs' : Reads s (ts ++ []) := by rwa [List.append_nil]
          refine (hgives s [] hs' (absurd · hnil)).bind_error fun t ht hfail => ?_
          rw [List.append_nil] at ht
          exact hcut' hnil' t d ht (hfail.trans hd)

end Tracks

namespace Completes

theorem congr (h : Completes n F e k fill y) (hxy : Same x y) : Completes n F e k fill x :=
  ⟨h.spelled, h.proper, h.fills.congr hxy, fun ts hts hn => (h.tracks ts hts hn).congr hxy⟩

theorem mono (h : Completes n G e k fill x) (hF : ∀ kind, F kind → G kind) (hk : k' ≤ k)
    (hproper : k' = 0 → fill = []) (hm : m ≤ n) : Completes m F e k' fill x where
  spelled := h.spelled
  proper := hproper
  fills s cs tail hcs htail := h.fills s cs tail hcs (htail.mono hF)
  tracks ts hts hn := (h.tracks ts hts (by omega)).mono hF hk

theorem bind (he : e.kind = .endOfInput) (hx : Completes n G e k fill x)
    (hf : ∀ a, Completes (n - k) F e j v (f a)) (henters : Enters G v F) [Inhabited α] :
    Completes n F e (k + j) (fill ++ v) (x >>= f) where
  spelled l hl := (List.mem_append.mp hl).elim (hx.spelled l) ((hf default).spelled l)
  proper hk := by
    obtain ⟨hk, hk'⟩ := Nat.add_eq_zero_iff.mp hk
    rw [hx.proper hk, (hf default).proper hk', List.append_nil]
  fills := hx.fills.bind (fun a => (hf a).fills) henters
  tracks ts hts hn := (hx.tracks ts hts hn).bind he hn hf henters (hf default).spelled

theorem le (h : Completes n F e k fill x) (hm : m ≤ n) : Completes m F e k fill x :=
  h.mono (fun _ h => h) (Nat.le_refl k) h.proper hm

theorem seq (he : e.kind = .endOfInput) (hx : Completes n G e k fill x)
    (hf : ∀ a, Completes n F e j v (f a)) (henters : Enters G v F) [Inhabited α] :
    Completes n F e (k + j) (fill ++ v) (x >>= f) :=
  hx.bind he (fun a => (hf a).le (Nat.sub_le n k)) henters

theorem map {g : α → β} (hx : Completes n F e k fill x) (he : e.kind = .endOfInput) [Inhabited α] :
    Completes n F e k fill (x >>= fun a => Pure.pure (g a)) := by
  have h := hx.seq he (f := fun a => Pure.pure (g a)) (j := 0) (v := []) (F := F)
    (fun _ => ⟨by simp, fun _ => rfl, .pure, fun _ hts _ => .pure hts⟩) fun _ h => h
  rwa [List.append_nil] at h

section

variable (hspelled : ∀ l ∈ fill, l.Spelled) (hproper : k = 0 → fill = []) (hfills : Fills F fill x)

include hspelled hproper hfills

theorem of_cons (hnil : Tracks F e k x [])
    (hcons : ∀ t ts, Inner (t :: ts) → ts.length + 1 < n → Tracks F e k x (t :: ts)) :
    Completes n F e k fill x where
  spelled := hspelled
  proper := hproper
  fills := hfills
  tracks ts hts hn := by
    cases ts with
    | nil => exact hnil
    | cons t ts => exact hcons t ts hts hn

theorem of_starves (hx : Starves e x)
    (hcons : ∀ t ts, Inner (t :: ts) → ts.length + 1 < n → Tracks F e k x (t :: ts)) :
    Completes n F e k fill x :=
  of_cons hspelled hproper hfills (.at_end hspelled hfills hx) hcons

theorem zero : Completes 0 F e k fill x :=
  ⟨hspelled, hproper, hfills, fun _ _ hn => absurd hn (Nat.not_lt_zero _)⟩

end

theorem after {g : Unit → Parse β} (h : Completes n F e k w (g ())) (hts : Inner (t :: ts))
    (hn : ts.length < n) : Tracks F e 1 (advance >>= g) (t :: ts) :=
  (Tracks.advance (h.tracks ts hts.tail hn)).mono (fun _ h => h) (Nat.le_add_left 1 k)

theorem pure : Completes n F e 0 [] (pure a) where
  spelled := by simp
  proper _ := rfl
  fills := .pure
  tracks _ hts _ := .pure hts

end Completes

end Rules

end RealScript.Parse
