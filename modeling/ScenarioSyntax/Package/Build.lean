/-!
How the tables of the parser are compiled into a static library.
-/

namespace ScenarioSyntax.Build

/-- Sources are read as UTF-8 by every compiler but one, which has to be told. -/
def needsUtf8Flag (environment : Option String) : Bool := environment == some "msvc"

def sourceDir : String := "src"

def inDir (path : String) : String := sourceDir ++ "/" ++ path

def tables : String := inDir "parser.c"

def library : String := "tree_sitter_wfg"

/-- The files that make a new build necessary when they change. -/
def watched : List String :=
  [tables, inDir "tree_sitter/parser.h", "bindings/rust/build_flags.rs"]

/-- Flags that are given to a compiler that knows them. -/
def probedFlags : List String :=
  ["-std=c11", "-Wno-unused-parameter", "-Wno-unused-but-set-variable", "-Wno-trigraphs"]

structure Plan where
  /-- Lines for the package manager. -/
  directives : List String
  /-- The arguments of the one compilation. -/
  arguments : List String
  deriving DecidableEq, Repr

/-- The plan for a target environment and a compiler that supports some flags. -/
def plan (environment : Option String) (supports : String → Bool) : Plan where
  directives :=
    watched.map ("cargo:rerun-if-changed=" ++ ·) ++ ["cargo:rustc-link-lib=static=" ++ library]
  arguments :=
    ["-I", sourceDir, "-w"] ++ probedFlags.filter supports ++
      (if needsUtf8Flag environment then ["-utf-8"] else []) ++ [tables]

end ScenarioSyntax.Build
