import Lumen.Proofs.Parser.Phrase
import Lumen.Proofs.Parser.View

/-! Functions and groups.

Both begin with a parenthesis, and the reading looks ahead to tell them apart: for names
with commas between them, a parenthesis and an arrow. It finds them where they are
(`runs_lambdaAhead`) and nowhere else (`ensures_lambdaAhead`), and where they are, the
parameters are read as they stand (`runs_parameters`), though the reading of parameters
would by itself put up with commas that are missing or do not belong. -/
namespace Lumen.Grammar
open Parse Phrase
open Token (Kind)

/-- The names behind the parenthesis that is next, if an arrow follows them. -/
theorem ensures_parametersAhead (t : Token) (v : View) :
    Ensures parametersAhead ([t] ++ v) fun found v' => v' = [t] ++ v ∧ (found = true →
      ∃ (ts : List Token) (names : List String) (u arrow : Token) (rest : View),
        v = (ts ++ [u, arrow]) ++ rest ∧ Series Name ts names ∧ u.kind = .parenClose ∧
          arrow.kind = .arrow) := by
  -- The tokens in front of the index are names, each with its comma.
  refine .iterate
    (fun index v' => v' = [t] ++ v ∧ ∃ (ts : List Token) (rest : View), v = ts ++ rest ∧
      index = ts.length + 1 ∧
      ∀ us names, Series Name us names → ∃ names, Series Name (ts ++ us) names)
    (fun index v' => v'.tokens.length - index) ?_
    ⟨rfl, [], v, rfl, rfl, fun us names h => ⟨names, h⟩⟩ (Nat.sub_le _ _)
  rintro _ _ ⟨rfl, ts, v, rfl, rfl, hread⟩
  have hlook : ∀ n, ([t] ++ (ts ++ v)).look (ts.length + 1 + n) = v.look n := by
    intro n
    rw [View.append_append, ← View.look_append (t :: ts) v n]
    rfl
  refine .bind (.peekKind fun name hname => ?_)
  rw [← Nat.add_zero (ts.length + 1), hlook] at hname
  split
  · next hidentifier =>
    obtain ⟨v, rfl⟩ := View.eq_cons_of_look hname (by rw [hidentifier]; decide)
    refine .bind (.peekKind fun u hu => ?_)
    rw [hlook, View.look_cons_succ, View.nil_append] at hu
    split
    · next hcomma =>
      obtain ⟨v, rfl⟩ := View.eq_cons_of_look hu (by rw [hcomma]; decide)
      refine .pure ⟨⟨rfl, ts ++ [name, u], v, by simp, by simp, fun us names hnames => ?_⟩, ?_⟩
      · obtain ⟨names', h⟩ := hread _ _ (.more (.name hidentifier) hcomma hnames)
        exact ⟨names', by simpa using h⟩
      · simp
        omega
    · next hclose =>
      obtain ⟨v, rfl⟩ := View.eq_cons_of_look hu (by rw [hclose]; decide)
      refine .bind (.peekKind fun arrow harrow => ?_)
      rw [hlook, View.look_cons_succ, View.nil_append, View.look_cons_succ, View.nil_append] at harrow
      refine .pure ⟨rfl, fun hfound => ?_⟩
      have harrow' : arrow.kind = .arrow := by simpa using hfound
      obtain ⟨v, rfl⟩ := View.eq_cons_of_look harrow (by rw [harrow']; decide)
      obtain ⟨names, h⟩ := hread _ _ (.last (.name hidentifier))
      exact ⟨ts ++ [name], names, u, arrow, v, by simp, h, hclose, harrow'⟩
    · exact .pure ⟨rfl, nofun⟩
  · exact .pure ⟨rfl, nofun⟩

/-- Looking ahead takes nothing, and finds the parameters of a function only where they are. -/
theorem ensures_lambdaAhead (t : Token) (v : View) :
    Ensures lambdaAhead ([t] ++ v) fun found v' => v' = [t] ++ v ∧ (found = true →
      ∃ (ts : List Token) (names : List String) (u arrow : Token) (rest : View),
        v = (ts ++ [u, arrow]) ++ rest ∧ Listed Name ts names ∧ u.kind = .parenClose ∧
          arrow.kind = .arrow) := by
  refine .bind (.peekKind fun u hu => ?_)
  rw [View.look_cons_succ, View.nil_append] at hu
  split
  · next hclose =>
    obtain ⟨v, rfl⟩ := View.eq_cons_of_look hu (by rw [hclose]; decide)
    refine .bind (.peekKind fun arrow harrow => ?_)
    rw [View.look_cons_succ, View.nil_append, View.look_cons_succ, View.nil_append] at harrow
    refine .pure ⟨rfl, fun hfound => ?_⟩
    have harrow' : arrow.kind = .arrow := by simpa using hfound
    obtain ⟨v, rfl⟩ := View.eq_cons_of_look harrow (by rw [harrow']; decide)
    exact ⟨[], [], u, arrow, v, by simp, .none, hclose, harrow'⟩
  · refine (ensures_parametersAhead t v).mono fun found v' ⟨hv, himp⟩ => ⟨hv, fun hfound => ?_⟩
    obtain ⟨ts, names, u, arrow, rest, hrest, hnames, hclose, harrow⟩ := himp hfound
    exact ⟨ts, names, u, arrow, rest, hrest, .some hnames, hclose, harrow⟩

/-! ### Parameters that are there -/

/-- Reads a parameter and the comma behind it, if there are any. -/
def nextParameter (names : List String) : Parse (Progress (List String) (List String)) := do
  if (← peekKind 0) = .parenClose then
    return .done names
  else
    let name ← expect .identifier .parameterName
    skip .comma
    return .more (names ++ [name.words])

theorem parameters_eq : parameters = iterate id nextParameter [] := rfl

variable {ts : List Token} {names : List String} {u : Token}

theorem loops_parameters_end (hu : u.kind = .parenClose) (read : List String) (v : View) :
    Loops id nextParameter 0 read ([u] ++ v) (.ok (read, [u] ++ v)) := by
  refine .done ((Runs.peekKind (View.look_cons_zero u [] v)).bind ?_)
  rw [if_pos hu]
  exact .pure _ _

theorem loops_parameters (h : Series Name ts names) (hu : u.kind = .parenClose)
    (read : List String) (v : View) :
    Loops id nextParameter ts.length read ((ts ++ [u]) ++ v) (.ok (read ++ names, [u] ++ v)) := by
  induction h generalizing read with
  | last hname =>
    obtain ⟨hname⟩ := hname
    refine (loops_parameters_end hu _ v).more ((Runs.peekKind rfl).bind ?_)
    rw [if_neg (by rw [hname]; decide)]
    refine (Runs.expect hname _ [u] v).bind ((Runs.skip_of_ne rfl ?_).bind (.pure _ _))
    rw [hu]
    decide
  | more hname hcomma _ ih =>
    obtain @⟨t, hname⟩ := hname
    have hrest := ih (read ++ [t.words])
    rw [List.append_assoc] at hrest
    refine (hrest.more ((Runs.peekKind rfl).bind ?_)).mono (by simp)
    rw [if_neg (by rw [hname]; decide)]
    exact (Runs.expect hname _ _ v).bind ((Runs.skip hcomma _ v).bind (.pure _ _))

/-- Parameters in front of a parenthesis are read as they stand. -/
theorem runs_parameters (h : Listed Name ts names) (hu : u.kind = .parenClose) (v : View) :
    Runs parameters ((ts ++ [u]) ++ v) (.ok (names, [u] ++ v)) := by
  rw [parameters_eq]
  cases h with
  | none => exact (loops_parameters_end hu [] v).runs (Nat.zero_le _)
  | some hnames => exact (loops_parameters hnames hu [] v).runs (by simp)

/-- Looks at a name and what follows it. -/
def nextName (index : Nat) : Parse (Progress Nat Bool) := do
  if (← peekKind index) = .identifier then
    match ← peekKind (index + 1) with
    | .comma => return .more (index + 2)
    | .parenClose => return .done ((← peekKind (index + 2)) = .arrow)
    | _ => return .done false
  else
    return .done false

theorem parametersAhead_eq : parametersAhead = iterate (fun _ => false) nextName 1 := rfl

/-- The names that follow the tokens `before` are found. -/
theorem loops_names (h : Series Name ts names) (hu : u.kind = .parenClose) {arrow : Token}
    (harrow : arrow.kind = .arrow) (before : List Token) (v : View) :
    Loops (fun _ => false) nextName ts.length before.length
      (before ++ ((ts ++ [u, arrow]) ++ v)) (.ok (true, before ++ ((ts ++ [u, arrow]) ++ v))) := by
  induction h generalizing before with
  | last hname =>
    obtain @⟨t, hname⟩ := hname
    have hlook := View.look_append before (([t] ++ [u, arrow]) ++ v)
    refine .done ((Runs.peekKind (hlook 0)).bind ?_)
    rw [if_pos hname]
    refine (Runs.peekKind (hlook 1)).bind ?_
    rw [hu]
    refine (Runs.peekKind (hlook 2)).bind ?_
    rw [harrow]
    exact .pure _ _
  | @more _ us comma a as hname hcomma _ ih =>
    obtain @⟨t, hname⟩ := hname
    have hlook := View.look_append before ((([t] ++ comma :: us) ++ [u, arrow]) ++ v)
    have hview : before ++ ((([t] ++ comma :: us) ++ [u, arrow]) ++ v) =
        (before ++ [t, comma]) ++ ((us ++ [u, arrow]) ++ v) := by simp
    have hrest := ih (before ++ [t, comma])
    rw [← hview, show (before ++ [t, comma]).length = before.length + 2 by simp] at hrest
    refine (hrest.more ((Runs.peekKind (hlook 0)).bind ?_)).mono (by simp)
    rw [if_pos hname]
    refine (Runs.peekKind (hlook 1)).bind ?_
    rw [hcomma]
    exact .pure _ _

/-- The parameters of a function are found where they are. -/
theorem runs_lambdaAhead (h : Listed Name ts names) (hu : u.kind = .parenClose) {arrow : Token}
    (harrow : arrow.kind = .arrow) (t : Token) (v : View) :
    Runs lambdaAhead ((t :: ts ++ [u, arrow]) ++ v) (.ok (true, (t :: ts ++ [u, arrow]) ++ v)) := by
  cases h with
  | none =>
    refine (Runs.peekKind (n := 1) rfl).bind ?_
    rw [if_pos hu]
    refine (Runs.peekKind (n := 2) rfl).bind ?_
    rw [harrow]
    exact .pure _ _
  | some hnames =>
    have hloops := loops_names hnames hu harrow [t] v
    have hfirst : ∃ name, ((t :: ts ++ [u, arrow]) ++ v).look 1 = .ok name ∧
        name.kind = .identifier := by
      cases hnames with
      | last hname => exact hname.casesOn fun ht => ⟨_, rfl, ht⟩
      | more hname _ _ => exact hname.casesOn fun ht => ⟨_, rfl, ht⟩
    obtain ⟨name, hlook, hname⟩ := hfirst
    refine (Runs.peekKind hlook).bind ?_
    rw [if_neg (by rw [hname]; decide), parametersAhead_eq]
    rw [View.append_append] at hloops
    exact hloops.runs (by simp; omega)

end Lumen.Grammar
