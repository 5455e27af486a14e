/-
  LjrServer.Http.Servlet — which servlet a request is dispatched to (servlet.cpp).

  Exact URIs are in a dictionary, patterns in a sequence that is searched from the front.
  Adding a pattern again moves it to the end, so it then comes after the others; both this
  and the deletion stop at the first entry with the pattern. `fnmatch` is a parameter.

  Proved:
  - `datas_run`, `globs_run`: what a history of calls leaves in the two tables.
  - `dispatch_follows_history`: the patterns stay distinct, and a URI gets the servlet its
    history says.
-/

import LjrServer.Lib.Recency

namespace LjrServer.Http

open LjrServer.Lib

/-- `m_datas` and `m_globs` hold servlets that are not null. -/
structure ServletDispatch (Servlet : Type) where
  datas : Roster String Servlet
  globs : List (String × Servlet)
  default : Servlet

namespace ServletDispatch

variable {Servlet : Type}

def new (notFound : Servlet) : ServletDispatch Servlet := { datas := [], globs := [], default := notFound }

def addServlet (d : ServletDispatch Servlet) (uri : String) (slt : Servlet) : ServletDispatch Servlet :=
  { d with datas := d.datas.put uri slt }

def addGlobServlet (d : ServletDispatch Servlet) (uri : String) (slt : Servlet) : ServletDispatch Servlet :=
  { d with globs := d.globs.eraseP (fun it => it.1 = uri) ++ [(uri, slt)] }

def delServlet (d : ServletDispatch Servlet) (uri : String) : ServletDispatch Servlet :=
  { d with datas := d.datas.remove uri }

def delGlobServlet (d : ServletDispatch Servlet) (uri : String) : ServletDispatch Servlet :=
  { d with globs := d.globs.eraseP fun it => it.1 = uri }

def getServlet (d : ServletDispatch Servlet) (uri : String) : Option Servlet := d.datas.lookup uri

def getGlobServlet (d : ServletDispatch Servlet) (uri : String) : Option Servlet :=
  (d.globs.find? fun it => it.1 = uri).map (·.2)

/-- `fnmatch pattern uri` is whether the C function returns 0. -/
def getMatchedServlet (fnmatch : String → String → Bool) (d : ServletDispatch Servlet) (uri : String) : Servlet :=
  match d.datas.lookup uri with
  | some slt => slt
  | none =>
    match d.globs.find? fun it => fnmatch it.1 uri with
    | some it => it.2
    | none => d.default

inductive Call (Servlet : Type) where
  | addServlet (uri : String) (slt : Servlet)
  | addGlobServlet (uri : String) (slt : Servlet)
  | delServlet (uri : String)
  | delGlobServlet (uri : String)
  deriving DecidableEq, Repr

def call (d : ServletDispatch Servlet) : Call Servlet → ServletDispatch Servlet
  | .addServlet uri slt => d.addServlet uri slt
  | .addGlobServlet uri slt => d.addGlobServlet uri slt
  | .delServlet uri => d.delServlet uri
  | .delGlobServlet uri => d.delGlobServlet uri

/-! ## Histories -/

/-- What a call changes among the exact URIs. -/
def Call.exact : Call Servlet → Option (Change String Servlet)
  | .addServlet uri slt => some (.put uri slt)
  | .delServlet uri => some (.drop uri)
  | _ => none

/-- What a call changes among the patterns. -/
def Call.pattern : Call Servlet → Option (Change String Servlet)
  | .addGlobServlet uri slt => some (.put uri slt)
  | .delGlobServlet uri => some (.drop uri)
  | _ => none

/-- The servlet of the last `addServlet(uri)` that no `delServlet(uri)` follows. -/
def added (uri : String) (history : List (Call Servlet)) : Option Servlet :=
  Change.latest uri (history.filterMap Call.exact)

/-- The patterns that are registered, each where it was last added, with their servlets. -/
def registered (history : List (Call Servlet)) : List (String × Servlet) :=
  Change.standing (history.filterMap Call.pattern)

/-- Whom a history dispatches a URI to. -/
def dispatched (fnmatch : String → String → Bool) (notFound : Servlet) (history : List (Call Servlet)) (uri : String) :
    Servlet :=
  (added uri history).getD <|
    (((registered history).find? fun p => fnmatch p.1 uri).map (·.2)).getD notFound

/-! ## The tables -/

theorem datas_run (history : List (Call Servlet)) (d : ServletDispatch Servlet) :
    (history.foldl call d).datas = (history.filterMap Call.exact).foldl Change.write d.datas := by
  induction history generalizing d with
  | nil => rfl
  | cons c history ih =>
    rw [List.foldl_cons, ih]
    cases c <;> rfl

theorem globs_run (history : List (Call Servlet)) (d : ServletDispatch Servlet) :
    (history.foldl call d).globs = (history.filterMap Call.pattern).foldl Change.move d.globs := by
  induction history generalizing d with
  | nil => rfl
  | cons c history ih =>
    rw [List.foldl_cons, ih]
    cases c <;> rfl

theorem default_run (history : List (Call Servlet)) (d : ServletDispatch Servlet) :
    (history.foldl call d).default = d.default := by
  induction history generalizing d with
  | nil => rfl
  | cons c history ih =>
    rw [List.foldl_cons, ih]
    cases c <;> rfl

/-- In every state a dispatcher comes to, no pattern is there twice, and a URI gets the
    servlet its history says. -/
theorem dispatch_follows_history (fnmatch : String → String → Bool) (notFound : Servlet)
    (history : List (Call Servlet)) :
    ((history.foldl call (new notFound)).globs.map Prod.fst).Nodup ∧
      ∀ uri, getMatchedServlet fnmatch (history.foldl call (new notFound)) uri =
        dispatched fnmatch notFound history uri := by
  have hglobs : (history.foldl call (new notFound)).globs = registered history := by
    rw [globs_run]
    exact Change.foldl_move _
  constructor
  · rw [hglobs]
    exact Change.standing_keyed _
  · intro uri
    have hdatas : (history.foldl call (new notFound)).datas.lookup uri = added uri history := by
      rw [datas_run]
      exact Change.lookup_foldl _ uri
    rw [getMatchedServlet, dispatched, hdatas, hglobs, default_run]
    cases added uri history with
    | some slt => rfl
    | none => cases (registered history).find? fun p => fnmatch p.1 uri <;> rfl

/-- `/a*` is added again behind `/*`, which then comes first. -/
example : getMatchedServlet (fun pattern _ => pattern = "/a*" || pattern = "/*")
    ([Call.addGlobServlet "/a*" 1, .addGlobServlet "/*" 2, .addGlobServlet "/a*" 3].foldl call (new 0)) "/ab" = 2 := by
  decide

end ServletDispatch

end LjrServer.Http
