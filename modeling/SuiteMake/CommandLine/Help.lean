import SuiteMake.CommandLine.Arguments

/-!
# Help

The version and the help texts of the program and its subcommands.
-/

namespace SuiteMake

def version : Text := "0.1.0".toList

def versionLine : Text := "makegen ".toList ++ version ++ ['\n']

namespace HelpTopic

/-- The options every level has, but for the last ones. -/
def settingLines : List String :=
  ["      --root <DIR>         Test-case root directory (default: testcases)",
   "      --support-dir <DIR>  Support directory holding the main file and header " ++
     "(default: testcasesupport)",
   "  -o, --output <FILE>      Recipe file to write (default: Makefile_all)",
   "      --exclude <MARKER>   File-name marker excluded from the portable build " ++
     "(repeatable; default: w32, wchar_t)",
   "      --prefix <PREFIX>    Test-case file prefix (default: CWE)",
   "  -h, --help               Print help"]

def about : Subcommand → String
  | .generate => "Write the recipe and patch the main file and header"
  | .recipe => "Print the recipe to stdout"
  | .list => "List discovered test cases and their entry points"

def flagLines : Subcommand → List String
  | .generate => ["      --check              Report out-of-date outputs without writing anything"]
  | .recipe => []
  | .list => ["      --json               Emit JSON"]

def aboutHelp : String := "Print this message or the help of the given subcommand(s)"

def lines : HelpTopic → List String
  | .program =>
    ["Generate a single Makefile for a labeled C/C++ test-case suite", "",
     "Usage: makegen [OPTIONS] [COMMAND]", "",
     "Commands:",
     "  generate  " ++ about .generate,
     "  recipe    " ++ about .recipe,
     "  list      " ++ about .list,
     "  help      " ++ aboutHelp, "",
     "Options:"] ++ settingLines ++ ["  -V, --version            Print version"]
  | .subcommand s =>
    [about s, "",
     "Usage: makegen " ++ String.ofList s.word ++ " [OPTIONS]", "",
     "Options:"] ++ flagLines s ++ settingLines
  | .help =>
    [aboutHelp, "",
     "Usage: makegen help [COMMAND]...", "",
     "Arguments:",
     "  [COMMAND]...  Print help for the subcommand(s)"]

def render (topic : HelpTopic) : Text := topic.lines.flatMap fun line => line.toList ++ ['\n']

end HelpTopic
end SuiteMake
